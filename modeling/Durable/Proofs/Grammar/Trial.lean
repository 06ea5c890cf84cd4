/-
Trying a declaration first takes nothing from expressions.

Where no word announces a statement, a declaration is tried and an expression or an assignment read
if it fails.  The order does not matter.  What is read as an expression stops in front of a
semicolon or the sign of an assignment, no declaration starts with an expression that stops there
(`Reads.not_localVar`), and so at most one of the two readings goes through, at every cursor
and not only where the choice is made.  Tried the other way round they give the same statement or
the same fault.
-/
import Durable.Proofs.Grammar.Statements
import Durable.Proofs.Grammar.Declarations

namespace Durable

open Durable.Parser

namespace StmtGrammar

/-- A token shows what statement it starts. -/
def announcesStmt : TokenKind → Bool
  | .mark .openBrace | .mark .atSign => true
  | .keyword k =>
    [.kwLock, .kwIf, .kwWhile, .kwForeach, .kwReturn, .kwDo, .kwPanic, .kwFail, .kwBreak,
      .kwContinue, .kwFinal, .kwVar].contains k
  | _ => false

/-- The two readings of a statement that no token announces, tried the other way round: an
expression or an assignment if it reads as one, else a declaration.  The fault, where neither goes
through, is that of the expression. -/
def exprOrDeclaration (g : Grammar) (origin : Nat) : Parser Stmt := fun c =>
  match exprOrAssign g origin c with
  | .ok read => .ok read
  | .error fault =>
    match localVar g c with
    | .ok (decl, c') => .ok (.localVar decl (c'.since origin), c')
    | .error _ => .error fault

variable {g : Grammar} {s : StmtGrammar} {c c' : Cursor} {t : Stmt} {origin : Nat}

/-! ### Where a declaration is tried -/

theorem keywordStmt_eq {k : Keyword} (h : announcesStmt (.keyword k) = false) :
    keywordStmt g s origin k = declarationOrExpr g origin := by
  cases k <;> first | rfl | exact absurd h (by decide)

theorem stmt_eq_declarationOrExpr (h : announcesStmt c.kind = false) :
    stmt g s c = declarationOrExpr g c.start c := by
  have hstart : start c = .ok (c.start, c) := rfl
  have hpeek : peek c = .ok (c.kind, c) := rfl
  rw [stmt, bind_of_ok hstart, bind_of_ok hpeek]
  cases hkind : c.kind with
  | mark m => cases m <;> first | rfl | simp [hkind, announcesStmt] at h
  | keyword k => exact congrFun (keywordStmt_eq (hkind ▸ h)) c
  | _ => rfl

theorem attempt?_of_error {α : Type} {p : Parser α} {fault : SyntaxError} (h : p c = .error fault) :
    attempt? p c = .ok (none, c) := by
  rw [attempt?, h]

theorem declarationOrExpr_of_error {fault : SyntaxError} (h : localVar g c = .error fault) :
    declarationOrExpr g origin c = exprOrAssign g origin c := by
  rw [declarationOrExpr, bind_of_ok (attempt?_of_error h)]

theorem declarationOrExpr_of_ok {decl : LocalVar} (h : localVar g c = .ok (decl, c')) :
    declarationOrExpr g origin c = .ok (.localVar decl (c'.since origin), c') := by
  have htried : attempt? (localVar g) c = .ok (some decl, c') := by rw [attempt?, h]
  rw [declarationOrExpr, bind_of_ok htried]
  rfl

/-! ### At most one reading goes through -/

/-- The expression at the start of a statement stops where an expression may stop. -/
theorem exprOrAssign_target (h : exprOrAssign g origin c = .ok (t, c')) :
    ∃ e c₁, g.expr c = .ok (e, c₁) ∧ endsExpr c₁.kind = true := by
  simp only [exprOrAssign, bind_eq_ok, peek_eq_ok] at h
  obtain ⟨e, c₁, he, _, _, ⟨rfl, rfl⟩, h⟩ := h
  refine ⟨e, c₁, he, ?_⟩
  cases hop : assignOp? c₁.kind with
  | some op =>
    rw [assignOp?_eq_some hop]
    cases op <;> rfl
  | none =>
    simp only [hop, bind_eq_ok, expect_eq_ok] at h
    obtain ⟨_, _, ⟨hclose, -⟩, -⟩ := h
    rw [hclose]
    rfl

theorem localVar_of_exprOrAssign (hg : g.Sound) (h : exprOrAssign g origin c = .ok (t, c')) :
    ∃ fault, localVar g c = .error fault := by
  cases hdecl : localVar g c with
  | error fault => exact ⟨fault, rfl⟩
  | ok read =>
    obtain ⟨e, c₁, he, hends⟩ := exprOrAssign_target h
    exact absurd (Grammar.localVar_sound hg hdecl) ((hg.expr he).not_localVar hends)

theorem declarationOrExpr_eq (hg : g.Sound) :
    declarationOrExpr g origin c = exprOrDeclaration g origin c := by
  rw [exprOrDeclaration]
  cases hexpr : exprOrAssign g origin c with
  | ok read =>
    obtain ⟨fault, hdecl⟩ := localVar_of_exprOrAssign hg hexpr
    rw [declarationOrExpr_of_error hdecl, hexpr]
  | error fault =>
    cases hdecl : localVar g c with
    | ok read => rw [declarationOrExpr_of_ok hdecl]
    | error fault' => rw [declarationOrExpr_of_error hdecl, hexpr]

/-- **Trying a declaration first takes nothing.**  Nowhere do a declaration and an expression or
assignment both go through.  So a statement that no token announces reads, or fails to read, as it
does with the readings tried the other way round; and where the declaration fails, the tokens are
read as an expression or an assignment from where it was tried. -/
theorem trial_takes_nothing (depth : Nat) (s : StmtGrammar) (c : Cursor) :
    (¬ ((∃ read, localVar (grammar depth) c = .ok read) ∧
      ∃ origin read, exprOrAssign (grammar depth) origin c = .ok read)) ∧
    (announcesStmt c.kind = false →
      stmt (grammar depth) s c = exprOrDeclaration (grammar depth) c.start c) ∧
    ∀ fault, localVar (grammar depth) c = .error fault →
      attempt? (localVar (grammar depth)) c = .ok (none, c) ∧
      (announcesStmt c.kind = false →
        stmt (grammar depth) s c = exprOrAssign (grammar depth) c.start c) := by
  have hg := grammar_sound depth
  refine ⟨?_, fun h => ?_, fun fault hfault => ⟨attempt?_of_error hfault, fun h => ?_⟩⟩
  · rintro ⟨⟨read, hdecl⟩, origin, read', hexpr⟩
    obtain ⟨fault, hfault⟩ := localVar_of_exprOrAssign hg hexpr
    exact absurd (hdecl.symm.trans hfault) (by simp)
  · rw [stmt_eq_declarationOrExpr h, declarationOrExpr_eq hg]
  · rw [stmt_eq_declarationOrExpr h, declarationOrExpr_of_error hfault]

/-- The tokens of an assignment to a member of a list, which starts as a declaration does. -/
def memberAssignment : Cursor :=
  ⟨[⟨.ident "a", ⟨0, 1⟩⟩, ⟨.mark .openBracket, ⟨1, 2⟩⟩, ⟨.int "1", ⟨2, 3⟩⟩,
    ⟨.mark .closeBracket, ⟨3, 4⟩⟩, ⟨.mark .assign, ⟨4, 5⟩⟩, ⟨.ident "b", ⟨5, 6⟩⟩,
    ⟨.mark .semicolon, ⟨6, 7⟩⟩], 0, ⟨7, 7⟩⟩

/-- No declaration goes through there, so both orders read the assignment. -/
theorem memberAssignment_read : announcesStmt memberAssignment.kind = false ∧
    ∃ fault read, localVar (grammar 8) memberAssignment = .error fault ∧
      stmt (grammar 8) (stmtGrammar (grammar 8) 8) memberAssignment = .ok read ∧
      exprOrDeclaration (grammar 8) 0 memberAssignment = .ok read ∧
      exprOrAssign (grammar 8) 0 memberAssignment = .ok read := by
  have hplain : announcesStmt memberAssignment.kind = false := by decide
  have hreads : (exprOrAssign (grammar 8) 0 memberAssignment).toOption.isSome = true := by
    decide +kernel
  obtain ⟨hboth, hother, hfailed⟩ :=
    trial_takes_nothing 8 (stmtGrammar (grammar 8) 8) memberAssignment
  cases hexpr : exprOrAssign (grammar 8) 0 memberAssignment with
  | error fault => simp [hexpr, Except.toOption] at hreads
  | ok read =>
    cases hdecl : localVar (grammar 8) memberAssignment with
    | ok read' => exact absurd ⟨⟨read', hdecl⟩, 0, read, hexpr⟩ hboth
    | error fault =>
      have hstmt := ((hfailed fault hdecl).2 hplain).trans hexpr
      exact ⟨hplain, fault, read, rfl, hstmt, (hother hplain).symm.trans hstmt, rfl⟩

end StmtGrammar

end Durable
