/-
The parser reads all statements that the grammar allows.

What a statement is shows in its first token, except that a declaration without a word in front
of it looks like an expression.  There the parser tries a declaration first; the trial fails
where the relation has an expression, because no text is both.
-/
import Durable.Proofs.Grammar.Complete
import Durable.Proofs.Grammar.Trial

namespace Durable

open Durable.Parser
open Cursor (length_advance_lt)

/-! ### Statements read tokens -/

/-- The symbols of statements that read at least one token whatever they read. -/
def StmtSym.Consumes : StmtSym → Prop
  | otherwise => False
  | _ => True

theorem ReadsStmt.length {s : StmtSym} {c c' : Cursor} {t : s.Result} (h : ReadsStmt s c t c') :
    c'.rest.length ≤ c.rest.length ∧ (s.Consumes → c'.rest.length < c.rest.length) := by
  have expr : ∀ {c c' : Cursor} {e : Expr}, Reads .expr c e c' →
      c'.rest.length < c.rest.length := fun h => h.length_lt trivial
  have type : ∀ {c c' : Cursor} {t : TypeDesc}, Reads .type c t c' →
      c'.rest.length < c.rest.length := fun h => h.length_lt trivial
  have decl : ∀ {c c' : Cursor} {d : LocalVar}, Reads .localVar c d c' →
      c'.rest.length < c.rest.length := fun h => h.length_lt trivial
  have value : ∀ {c c' : Cursor} {p : TokenKind → Bool} {e : Option Expr},
      Reads (.given p .expr) c e c' → c'.rest.length ≤ c.rest.length := fun h => h.length.1
  induction h with
  | _ => grind [Cursor.length_advance_le, Cursor.length_advance_lt, StmtSym.Consumes]

/-- Where fewer than `n` tokens are left, the parsers that statements recurse into read all that
the relation allows. -/
structure StmtGrammar.Complete (s : StmtGrammar) (n : Nat) : Prop where
  block : ∀ ⦃c b c'⦄, c.rest.length < n → ReadsStmt .block c b c' → s.block c = .ok (b, c')
  ifElse : ∀ ⦃c t c'⦄, c.rest.length < n → ReadsStmt .ifElse c t c' → s.ifElse c = .ok (t, c')

namespace StmtGrammar

variable {g : Grammar} {s : StmtGrammar} {n : Nat} {c c' : Cursor} {t : Stmt}

/-! ### Declarations and expressions -/

theorem declared_complete (hg : g.Complete n) (hn : c.rest.length < n) {d : LocalVar}
    (h : Reads .localVar c d c') :
    (do return Stmt.localVar (← localVar g) (← since c.start) : Parser Stmt) c
      = .ok (.localVar d (c'.since c.start), c') := by
  simp only [bind_eq_ok, since_eq_ok, pure_eq_ok]
  exact ⟨_, _, Grammar.localVar_complete hg hn h, _, _, ⟨rfl, rfl⟩, rfl, rfl⟩

theorem declarationOrExpr_of_localVar (hg : g.Complete n) (hn : c.rest.length < n) {d : LocalVar}
    (h : Reads .localVar c d c') :
    declarationOrExpr g c.start c = .ok (.localVar d (c'.since c.start), c') :=
  declarationOrExpr_of_ok (Grammar.localVar_complete hg hn h)

theorem declarationOrExpr_of_expr (hs : g.Sound)
    (hrun : exprOrAssign g c.start c = .ok (t, c')) :
    declarationOrExpr g c.start c = .ok (t, c') := by
  obtain ⟨fault, hfault⟩ := localVar_of_exprOrAssign hs hrun
  exact (declarationOrExpr_of_error hfault).trans hrun

theorem ofMark?_mark (op : AssignOp) : AssignOp.ofMark? op.mark = some op := by
  cases op <;> rfl

/-- A statement that starts as an expression and is no block is read as a declaration or an
expression. -/
theorem stmt_of_startsExpr (hstarts : c.kind.startsExpr = true) (hplain : c.kind ≠ .mark .openBrace)
    (h : declarationOrExpr g c.start c = .ok (t, c')) : stmt g s c = .ok (t, c') := by
  simp only [stmt, bind_eq_ok, start_eq_ok, peek_eq_ok]
  refine ⟨_, _, ⟨rfl, rfl⟩, _, _, ⟨rfl, rfl⟩, ?_⟩
  cases hk : c.kind with
  | keyword k =>
    rw [hk] at hstarts
    cases k <;> first | exact h | exact absurd hstarts (by decide)
  | mark m =>
    rw [hk] at hstarts hplain
    cases m <;> first | exact h | exact absurd rfl hplain | exact absurd hstarts (by decide)
  | _ => exact h

/-! ### All statements -/

theorem keywordStmt_complete {k : Keyword} (hk : c.kind = .keyword k)
    (h : keywordStmt g s c.start k c = .ok (t, c')) : stmt g s c = .ok (t, c') := by
  simp only [stmt, bind_eq_ok, start_eq_ok, peek_eq_ok]
  exact ⟨_, _, ⟨rfl, rfl⟩, .keyword k, _, ⟨hk, rfl⟩, h⟩

theorem localVar_complete (hg : g.Complete n) (hn : c.rest.length < n) {d : LocalVar}
    (h : Reads .localVar c d c') : stmt g s c = .ok (.localVar d (c'.since c.start), c') := by
  have hdeclared := declared_complete hg hn h
  have htried := declarationOrExpr_of_localVar hg hn h
  have hstarts : c.kind.startsType = true ∨ c.kind = .mark .atSign ∨ c.kind = .keyword .kwFinal :=
    h.starts
  simp only [stmt, bind_eq_ok, start_eq_ok, peek_eq_ok]
  refine ⟨_, _, ⟨rfl, rfl⟩, _, _, ⟨rfl, rfl⟩, ?_⟩
  cases hk : c.kind with
  | keyword k =>
    rw [hk] at hstarts
    cases k <;> first | exact htried | exact hdeclared | exact absurd hstarts (by decide)
  | mark m =>
    rw [hk] at hstarts
    cases m <;> first | exact htried | exact hdeclared | exact absurd hstarts (by decide)
  | _ => exact htried

theorem stmt_complete (hs : g.Sound) (hg : g.Complete n) (hc : s.Complete n)
    (hn : c.rest.length < n) (h : ReadsStmt .stmt c t c') : stmt g s c = .ok (t, c') := by
  have hadvance := c.length_advance_le
  have hadvance' := c.advance.length_advance_le
  cases h with
  | localVar decl => exact localVar_complete hg hn decl
  | @assign _ c₁ c₂ _ _ op plain target sign value closing =>
    have := target.length.1
    have := c₁.length_advance_le
    refine stmt_of_startsExpr target.starts plain
      (declarationOrExpr_of_expr hs ?_)
    simp only [exprOrAssign, bind_eq_ok, peek_eq_ok]
    refine ⟨_, _, hg.expr hn target, _, _, ⟨sign, rfl⟩, ?_⟩
    simp only [assignOp?, ofMark?_mark, bind_eq_ok, advance_eq_ok, expect_eq_ok, since_eq_ok,
      pure_eq_ok]
    exact ⟨_, _, ⟨rfl, rfl⟩, _, _, hg.expr (by omega) value, _, _, ⟨closing, rfl, rfl⟩, _, _,
      ⟨rfl, rfl⟩, rfl, rfl⟩
  | expr plain value closing =>
    refine stmt_of_startsExpr value.starts plain
      (declarationOrExpr_of_expr hs ?_)
    simp only [exprOrAssign, bind_eq_ok, peek_eq_ok]
    refine ⟨_, _, hg.expr hn value, .mark .semicolon, _, ⟨closing, rfl⟩, ?_⟩
    simp only [show assignOp? (.mark .semicolon) = none from rfl, bind_eq_ok, expect_eq_ok,
      since_eq_ok, pure_eq_ok]
    exact ⟨_, _, ⟨closing, rfl, rfl⟩, _, _, ⟨rfl, rfl⟩, rfl, rfl⟩
  | lock word body =>
    refine keywordStmt_complete word ?_
    simp only [keywordStmt, bind_eq_ok, advance_eq_ok, since_eq_ok, pure_eq_ok]
    exact ⟨_, _, ⟨rfl, rfl⟩, _, _, hc.block (by omega) body, _, _, ⟨rfl, rfl⟩, rfl, rfl⟩
  | ifElse inner =>
    have hword : c.kind = .keyword .kwIf := by cases inner; assumption
    exact keywordStmt_complete hword (hc.ifElse hn inner)
  | whileLoop word condition body =>
    have := condition.length.1
    refine keywordStmt_complete word ?_
    simp only [keywordStmt, bind_eq_ok, advance_eq_ok, since_eq_ok, pure_eq_ok]
    exact ⟨_, _, ⟨rfl, rfl⟩, _, _, hg.expr (by omega) condition, _, _, hc.block (by omega) body, _, _,
      ⟨rfl, rfl⟩, rfl, rfl⟩
  | @foreach _ c₁ c₂ _ _ x _ _ word type name isIn items body =>
    have := type.length.1
    have := c₁.length_advance_le
    have := c₁.advance.length_advance_le
    have := items.length.1
    refine keywordStmt_complete word ?_
    simp only [keywordStmt, StmtGrammar.foreach, bind_eq_ok, advance_eq_ok, ident_eq_ok,
      expect_eq_ok, since_eq_ok, pure_eq_ok]
    exact ⟨_, _, ⟨rfl, rfl⟩, _, _, hg.type (by omega) type, ⟨x, c₁.span⟩, _, ⟨name, rfl, rfl⟩, _, _,
      ⟨isIn, rfl, rfl⟩, _, _, hg.expr (by omega) items, _, _, hc.block (by omega) body, _, _,
      ⟨rfl, rfl⟩, rfl, rfl⟩
  | giveBack word value closing =>
    refine keywordStmt_complete word ?_
    simp only [keywordStmt, bind_eq_ok, advance_eq_ok, at?_eq_ok]
    refine ⟨_, _, ⟨rfl, rfl⟩, _, _, ⟨rfl, rfl⟩, ?_⟩
    cases value with
    | missing test =>
      simp only [closing, beq_self_eq_true, if_true, bind_eq_ok, expect_eq_ok, since_eq_ok,
        pure_eq_ok]
      exact ⟨_, _, ⟨rfl, rfl⟩, _, _, ⟨closing, rfl, rfl⟩, _, _, ⟨rfl, rfl⟩, rfl, rfl⟩
    | found test value =>
      rw [if_neg (by simpa using test)]
      simp only [bind_eq_ok, map_eq_ok, expect_eq_ok, since_eq_ok, pure_eq_ok]
      exact ⟨_, _, ⟨_, hg.expr (by omega) value, rfl⟩, _, _, ⟨closing, rfl, rfl⟩, _, _, ⟨rfl, rfl⟩,
        rfl, rfl⟩
  | attempt word body alone =>
    refine keywordStmt_complete word ?_
    simp only [keywordStmt, StmtGrammar.attempt, bind_eq_ok, advance_eq_ok, accept_eq_ok]
    refine ⟨_, _, ⟨rfl, rfl⟩, _, _, hc.block (by omega) body, false, _, .inr ⟨alone, rfl, rfl⟩, ?_⟩
    simp only [Bool.false_eq_true, if_false, bind_eq_ok, since_eq_ok, pure_eq_ok]
    exact ⟨_, _, ⟨rfl, rfl⟩, rfl, rfl⟩
  | @attemptOnFail _ c₁ c₂ _ _ _ _ x word body on fail type name handler =>
    have := body.length.1
    have := c₁.length_advance_le
    have := c₁.advance.length_advance_le
    have := type.length.1
    have := c₂.length_advance_le
    refine keywordStmt_complete word ?_
    simp only [keywordStmt, StmtGrammar.attempt, bind_eq_ok, advance_eq_ok, accept_eq_ok]
    refine ⟨_, _, ⟨rfl, rfl⟩, _, _, hc.block (by omega) body, true, _, .inl ⟨on, rfl, rfl⟩, ?_⟩
    simp only [if_true, bind_eq_ok, expect_eq_ok, ident_eq_ok, since_eq_ok, pure_eq_ok]
    exact ⟨_, _, ⟨fail, rfl, rfl⟩, _, _, hg.type (by omega) type, ⟨x, c₂.span⟩, _, ⟨name, rfl, rfl⟩,
      _, _, hc.block (by omega) handler, _, _, ⟨rfl, rfl⟩, rfl, rfl⟩
  | blockStmt body =>
    have hword : c.kind = .mark .openBrace := by cases body; assumption
    simp only [stmt, bind_eq_ok, start_eq_ok, peek_eq_ok]
    refine ⟨_, _, ⟨rfl, rfl⟩, .mark .openBrace, _, ⟨hword, rfl⟩, ?_⟩
    simp only [bind_eq_ok, since_eq_ok, pure_eq_ok]
    exact ⟨_, _, hc.block hn body, _, _, ⟨rfl, rfl⟩, rfl, rfl⟩
  | panic word value closing =>
    refine keywordStmt_complete word ?_
    simp only [keywordStmt, bind_eq_ok, advance_eq_ok, expect_eq_ok, since_eq_ok, pure_eq_ok]
    exact ⟨_, _, ⟨rfl, rfl⟩, _, _, hg.expr (by omega) value, _, _, ⟨closing, rfl, rfl⟩, _, _,
      ⟨rfl, rfl⟩, rfl, rfl⟩
  | fail word value closing =>
    refine keywordStmt_complete word ?_
    simp only [keywordStmt, bind_eq_ok, advance_eq_ok, expect_eq_ok, since_eq_ok, pure_eq_ok]
    exact ⟨_, _, ⟨rfl, rfl⟩, _, _, hg.expr (by omega) value, _, _, ⟨closing, rfl, rfl⟩, _, _,
      ⟨rfl, rfl⟩, rfl, rfl⟩
  | leave word closing =>
    refine keywordStmt_complete word ?_
    simp only [keywordStmt, bind_eq_ok, advance_eq_ok, expect_eq_ok, since_eq_ok, pure_eq_ok]
    exact ⟨_, _, ⟨rfl, rfl⟩, _, _, ⟨closing, rfl, rfl⟩, _, _, ⟨rfl, rfl⟩, rfl, rfl⟩
  | again word closing =>
    refine keywordStmt_complete word ?_
    simp only [keywordStmt, bind_eq_ok, advance_eq_ok, expect_eq_ok, since_eq_ok, pure_eq_ok]
    exact ⟨_, _, ⟨rfl, rfl⟩, _, _, ⟨closing, rfl, rfl⟩, _, _, ⟨rfl, rfl⟩, rfl, rfl⟩

theorem repeats_of_readsStmt : ∀ {c c' : Cursor} {ss : List Stmt}, ReadsStmt .stmts c ss c' →
    Repeats closingStep (ReadsStmt .stmt) c ss c'
  | _, _, _, .noStmts closing => .stop (by simp [closingStep, closing])
  | _, _, _, .stmts more open' first others =>
    .more (by simp [closingStep, more, open']) first (repeats_of_readsStmt others)

theorem closingStep_length {b : Bool} (h : closingStep c = some (b, c')) :
    c'.rest.length ≤ c.rest.length := by
  cases b with
  | true =>
    obtain ⟨-, rfl⟩ := closingStep_stop h
    exact c.length_advance_le
  | false =>
    obtain ⟨-, -, rfl⟩ := closingStep_more h
    exact Nat.le_refl _

theorem bracedStmts_complete (hs : g.Sound) (hg : g.Complete n) (hc : s.Complete n) {b : Block}
    (hn : c.rest.length < n + 1) (h : ReadsStmt .block c b c') :
    bracedStmts g s c = .ok (b, c') := by
  cases h with
  | block opening list =>
    have := length_advance_lt (c := c) (by simp [opening])
    simp only [bracedStmts, bind_eq_ok, start_eq_ok, expect_eq_ok, since_eq_ok, pure_eq_ok]
    refine ⟨_, _, ⟨rfl, rfl⟩, _, _, ⟨opening, rfl, rfl⟩, _, _, ?_, _, _, ⟨rfl, rfl⟩, rfl, rfl⟩
    exact many_of_repeats closingBrace_steps closingStep_length (fun h => h.length.2 trivial)
      (repeats_of_readsStmt list) fun hle h => stmt_complete hs hg hc (by omega) h

theorem ifStmt_complete (hg : g.Complete n) (hc : s.Complete n) (hn : c.rest.length < n + 1)
    (h : ReadsStmt .ifElse c t c') : ifStmt g s c = .ok (t, c') := by
  cases h with
  | @condition _ c₁ c₂ _ _ _ _ word condition body rest =>
    have := length_advance_lt (c := c) (by simp [word])
    have := condition.length.1
    have := body.length.1
    have := c₂.length_advance_le
    simp only [ifStmt, ite_bind_eq, bind_eq_ok, start_eq_ok, expect_eq_ok, accept_eq_ok,
      since_eq_ok, pure_eq_ok]
    refine ⟨_, _, ⟨rfl, rfl⟩, _, _, ⟨word, rfl, rfl⟩, _, _, hg.expr (by omega) condition, _, _,
      hc.block (by omega) body, ?_⟩
    cases rest with
    | noElse other =>
      refine ⟨false, _, .inr ⟨other, rfl, rfl⟩, none, c', ?_, _, _, ⟨rfl, rfl⟩, rfl, rfl⟩
      simp [pure_eq_ok]
    | elseIf word' inner =>
      have hif : c₂.advance.kind = .keyword .kwIf := by cases inner; assumption
      refine ⟨true, _, .inl ⟨word', rfl, rfl⟩, some _, _, ?_, _, _, ⟨rfl, rfl⟩, rfl, rfl⟩
      simp only [if_true, map_eq_ok, ifStmt.alternative, bind_eq_ok, at?_eq_ok]
      refine ⟨_, ⟨_, _, ⟨rfl, rfl⟩, ?_⟩, rfl⟩
      rw [if_pos (by simp [hif])]
      exact hc.ifElse (by omega) inner
    | elseBlock word' other =>
      have hbrace : c₂.advance.kind = .mark .openBrace := by cases other; assumption
      refine ⟨true, _, .inl ⟨word', rfl, rfl⟩, some _, _, ?_, _, _, ⟨rfl, rfl⟩, rfl, rfl⟩
      simp only [if_true, map_eq_ok, ifStmt.alternative, bind_eq_ok, at?_eq_ok]
      refine ⟨_, ⟨_, _, ⟨rfl, rfl⟩, ?_⟩, rfl⟩
      rw [if_neg (by simp [hbrace])]
      simp only [bind_eq_ok, start_eq_ok, since_eq_ok, pure_eq_ok]
      exact ⟨_, _, ⟨rfl, rfl⟩, _, _, hc.block (by omega) other, _, _, ⟨rfl, rfl⟩, rfl, rfl⟩

end StmtGrammar

/-- The grammar of statements reads all that the relation allows where fewer tokens are left than it
is deep. -/
theorem stmtGrammar_complete {g : Grammar} {n : Nat} (hs : g.Sound) (hg : g.Complete n)
    (depth : Nat) (hdepth : depth ≤ n) : (stmtGrammar g depth).Complete depth := by
  induction depth with
  | zero => constructor <;> exact fun _ _ _ h => absurd h (Nat.not_lt_zero _)
  | succ depth ih =>
    have hg' : g.Complete depth := by
      refine ⟨?_, ?_, fun floor => ?_, ?_⟩ <;> intro c t c' hn h
      · exact hg.type (by omega) h
      · exact hg.expr (by omega) h
      · exact hg.binary floor (by omega) h
      · exact hg.unary (by omega) h
    exact ⟨fun _ _ _ hn h => StmtGrammar.bracedStmts_complete hs hg' (ih (by omega)) hn h,
      fun _ _ _ hn h => StmtGrammar.ifStmt_complete hg' (ih (by omega)) hn h⟩

end Durable
