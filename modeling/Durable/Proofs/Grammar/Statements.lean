/-
The grammar of statements, as a relation, and the parser's soundness for it.

A statement that no word announces is tried as a declaration first and read as an expression
where that fails.  The relation does not mention the failed attempt: that no text is both is a
fact about the grammar, proved where it is needed, and not part of what a statement is.
-/
import Durable.Proofs.Grammar.Sound
import Durable.Proofs.Grammar.Progress

namespace Durable

open Durable.Parser

/-- The symbols of the grammar of statements. -/
inductive StmtSym where
  | stmt | block
  /-- The statements of a block, up to its closing brace. -/
  | stmts
  /-- A conditional statement, from the word `if` on. -/
  | ifElse
  /-- What may follow the block of a conditional statement. -/
  | otherwise

/-- What a symbol reads. -/
@[reducible] def StmtSym.Result : StmtSym → Type
  | stmt | ifElse => Stmt
  | block => Block
  | stmts => List Stmt
  | otherwise => Option Stmt

/-- From a cursor a symbol reads a statement, a block or a list up to a later cursor. -/
inductive ReadsStmt : (s : StmtSym) → Cursor → s.Result → Cursor → Prop
  | localVar {c c₁ : Cursor} {d : LocalVar} (decl : Reads .localVar c d c₁) :
      ReadsStmt .stmt c (.localVar d (c₁.since c.start)) c₁
  | assign {c c₁ c₂ : Cursor} {e f : Expr} {op : AssignOp} (plain : c.kind ≠ .mark .openBrace)
      (target : Reads .expr c e c₁) (sign : c₁.kind = .mark op.mark)
      (value : Reads .expr c₁.advance f c₂) (closing : c₂.kind = .mark .semicolon) :
      ReadsStmt .stmt c (.assign e op f (c₂.advance.since c.start)) c₂.advance
  | expr {c c₁ : Cursor} {e : Expr} (plain : c.kind ≠ .mark .openBrace)
      (value : Reads .expr c e c₁) (closing : c₁.kind = .mark .semicolon) :
      ReadsStmt .stmt c (.expr e (c₁.advance.since c.start)) c₁.advance
  | lock {c c₁ : Cursor} {b : Block} (word : c.kind = .keyword .kwLock)
      (body : ReadsStmt .block c.advance b c₁) :
      ReadsStmt .stmt c (.lock b (c₁.since c.start)) c₁
  | ifElse {c c₁ : Cursor} {s : Stmt} (inner : ReadsStmt .ifElse c s c₁) :
      ReadsStmt .stmt c s c₁
  | whileLoop {c c₁ c₂ : Cursor} {e : Expr} {b : Block} (word : c.kind = .keyword .kwWhile)
      (condition : Reads .expr c.advance e c₁) (body : ReadsStmt .block c₁ b c₂) :
      ReadsStmt .stmt c (.whileLoop e b (c₂.since c.start)) c₂
  | foreach {c c₁ c₂ c₃ : Cursor} {t : TypeDesc} {n : String} {e : Expr} {b : Block}
      (word : c.kind = .keyword .kwForeach) (type : Reads .type c.advance t c₁)
      (name : c₁.kind = .ident n) (isIn : c₁.advance.kind = .keyword .kwIn)
      (items : Reads .expr c₁.advance.advance e c₂) (body : ReadsStmt .block c₂ b c₃) :
      ReadsStmt .stmt c (.foreach t ⟨n, c₁.span⟩ e b (c₃.since c.start)) c₃
  | giveBack {c c₁ : Cursor} {e : Option Expr} (word : c.kind = .keyword .kwReturn)
      (value : Reads (.given (· != .mark .semicolon) .expr) c.advance e c₁)
      (closing : c₁.kind = .mark .semicolon) :
      ReadsStmt .stmt c (.giveBack e (c₁.advance.since c.start)) c₁.advance
  | attempt {c c₁ : Cursor} {b : Block} (word : c.kind = .keyword .kwDo)
      (body : ReadsStmt .block c.advance b c₁) (alone : c₁.kind ≠ .keyword .kwOn) :
      ReadsStmt .stmt c (.attempt b (c₁.since c.start)) c₁
  | attemptOnFail {c c₁ c₂ c₃ : Cursor} {b h : Block} {t : TypeDesc} {n : String}
      (word : c.kind = .keyword .kwDo) (body : ReadsStmt .block c.advance b c₁)
      (on : c₁.kind = .keyword .kwOn) (fail : c₁.advance.kind = .keyword .kwFail)
      (type : Reads .type c₁.advance.advance t c₂) (name : c₂.kind = .ident n)
      (handler : ReadsStmt .block c₂.advance h c₃) :
      ReadsStmt .stmt c (.attemptOnFail b t ⟨n, c₂.span⟩ h (c₃.since c.start)) c₃
  | blockStmt {c c₁ : Cursor} {b : Block} (body : ReadsStmt .block c b c₁) :
      ReadsStmt .stmt c (.block b (c₁.since c.start)) c₁
  | panic {c c₁ : Cursor} {e : Expr} (word : c.kind = .keyword .kwPanic)
      (value : Reads .expr c.advance e c₁) (closing : c₁.kind = .mark .semicolon) :
      ReadsStmt .stmt c (.panic e (c₁.advance.since c.start)) c₁.advance
  | fail {c c₁ : Cursor} {e : Expr} (word : c.kind = .keyword .kwFail)
      (value : Reads .expr c.advance e c₁) (closing : c₁.kind = .mark .semicolon) :
      ReadsStmt .stmt c (.fail e (c₁.advance.since c.start)) c₁.advance
  | leave {c : Cursor} (word : c.kind = .keyword .kwBreak)
      (closing : c.advance.kind = .mark .semicolon) :
      ReadsStmt .stmt c (.leave (c.advance.advance.since c.start)) c.advance.advance
  | again {c : Cursor} (word : c.kind = .keyword .kwContinue)
      (closing : c.advance.kind = .mark .semicolon) :
      ReadsStmt .stmt c (.again (c.advance.advance.since c.start)) c.advance.advance
  | block {c c₁ : Cursor} {ss : List Stmt} (opening : c.kind = .mark .openBrace)
      (list : ReadsStmt .stmts c.advance ss c₁) :
      ReadsStmt .block c (.mk ss (c₁.since c.start)) c₁
  | noStmts {c : Cursor} (closing : c.kind = .mark .closeBrace) :
      ReadsStmt .stmts c [] c.advance
  | stmts {c c₁ c₂ : Cursor} {s : Stmt} {ss : List Stmt} (more : c.kind ≠ .mark .closeBrace)
      (open' : c.kind ≠ .endOfFile) (first : ReadsStmt .stmt c s c₁)
      (others : ReadsStmt .stmts c₁ ss c₂) : ReadsStmt .stmts c (s :: ss) c₂
  | condition {c c₁ c₂ c₃ : Cursor} {e : Expr} {b : Block} {other : Option Stmt}
      (word : c.kind = .keyword .kwIf) (condition : Reads .expr c.advance e c₁)
      (body : ReadsStmt .block c₁ b c₂) (rest : ReadsStmt .otherwise c₂ other c₃) :
      ReadsStmt .ifElse c (.ifElse e b other (c₃.since c.start)) c₃
  | noElse {c : Cursor} (other : c.kind ≠ .keyword .kwElse) : ReadsStmt .otherwise c none c
  | elseIf {c c₁ : Cursor} {s : Stmt} (word : c.kind = .keyword .kwElse)
      (inner : ReadsStmt .ifElse c.advance s c₁) : ReadsStmt .otherwise c (some s) c₁
  | elseBlock {c c₁ : Cursor} {b : Block} (word : c.kind = .keyword .kwElse)
      (body : ReadsStmt .block c.advance b c₁) :
      ReadsStmt .otherwise c (some (.block b (c₁.since c.advance.start))) c₁

/-! ### The parser is sound -/

/-- The parsers that statements recurse into read only what the relation allows. -/
structure StmtGrammar.Sound (s : StmtGrammar) : Prop where
  block : ∀ ⦃c b c'⦄, s.block c = .ok (b, c') → ReadsStmt .block c b c'
  ifElse : ∀ ⦃c t c'⦄, s.ifElse c = .ok (t, c') → ReadsStmt .ifElse c t c'

namespace StmtGrammar

variable {g : Grammar} {s : StmtGrammar} {c c' : Cursor} {t : Stmt}

theorem assignOp?_eq_some {k : TokenKind} {op : AssignOp} (h : assignOp? k = some op) :
    k = .mark op.mark := by
  unfold assignOp? at h
  split at h
  · rw [AssignOp.ofMark?] at h
    have hop := List.find?_some h
    rw [beq_iff_eq.mp hop]
  · simp at h

theorem exprOrAssign_sound (hg : g.Sound) (hc : c.kind ≠ .mark .openBrace)
    (h : exprOrAssign g c.start c = .ok (t, c')) : ReadsStmt .stmt c t c' := by
  simp only [exprOrAssign, bind_eq_ok, peek_eq_ok] at h
  obtain ⟨e, c₁, he, k, _, ⟨rfl, rfl⟩, h⟩ := h
  cases hop : assignOp? c₁.kind with
  | some op =>
    simp only [hop, bind_eq_ok, advance_eq_ok, expect_eq_ok, since_eq_ok, pure_eq_ok] at h
    obtain ⟨_, _, ⟨-, rfl⟩, f, _, hf, _, _, ⟨hclose, -, rfl⟩, _, _, ⟨rfl, rfl⟩, rfl, rfl⟩ := h
    exact .assign hc (hg.expr he) (assignOp?_eq_some hop) (hg.expr hf) hclose
  | none =>
    simp only [hop, bind_eq_ok, expect_eq_ok, since_eq_ok, pure_eq_ok] at h
    obtain ⟨_, _, ⟨hclose, -, rfl⟩, _, _, ⟨rfl, rfl⟩, rfl, rfl⟩ := h
    exact .expr hc (hg.expr he) hclose

theorem declared_sound (hg : g.Sound)
    (h : (do return Stmt.localVar (← localVar g) (← since c.start) : Parser Stmt) c
      = .ok (t, c')) : ReadsStmt .stmt c t c' := by
  simp only [bind_eq_ok, since_eq_ok, pure_eq_ok] at h
  obtain ⟨d, _, hd, _, _, ⟨rfl, rfl⟩, rfl, rfl⟩ := h
  exact .localVar (Grammar.localVar_sound hg hd)

theorem declarationOrExpr_sound (hg : g.Sound) (hc : c.kind ≠ .mark .openBrace)
    (h : declarationOrExpr g c.start c = .ok (t, c')) : ReadsStmt .stmt c t c' := by
  unfold declarationOrExpr at h
  rw [bind_eq_ok] at h
  obtain ⟨tried, c₁, htried, h⟩ := h
  unfold attempt? at htried
  split at htried
  · next d c₂ hd =>
    simp only [Except.ok.injEq, Prod.mk.injEq] at htried
    obtain ⟨rfl, rfl⟩ := htried
    simp only [bind_eq_ok, since_eq_ok, pure_eq_ok] at h
    obtain ⟨_, _, ⟨rfl, rfl⟩, rfl, rfl⟩ := h
    exact .localVar (Grammar.localVar_sound hg hd)
  · simp only [Except.ok.injEq, Prod.mk.injEq] at htried
    obtain ⟨rfl, rfl⟩ := htried
    exact exprOrAssign_sound hg hc h

theorem foreach_sound (hg : g.Sound) (hs : s.Sound) (hword : c.kind = .keyword .kwForeach)
    (h : foreach g s c.start c = .ok (t, c')) : ReadsStmt .stmt c t c' := by
  simp only [foreach, bind_eq_ok, advance_eq_ok, ident_eq_ok, expect_eq_ok, since_eq_ok,
    pure_eq_ok] at h
  obtain ⟨_, _, ⟨-, rfl⟩, t, _, ht, ⟨n, sp⟩, _, ⟨hn, hsp, rfl⟩, _, _, ⟨hin, -, rfl⟩, e, _, he,
    b, _, hb, _, _, ⟨rfl, rfl⟩, rfl, rfl⟩ := h
  subst hsp
  exact .foreach hword (hg.type ht) hn hin (hg.expr he) (hs.block hb)

theorem attempt_sound (hg : g.Sound) (hs : s.Sound) (hword : c.kind = .keyword .kwDo)
    (h : attempt g s c.start c = .ok (t, c')) : ReadsStmt .stmt c t c' := by
  simp only [attempt, bind_eq_ok, advance_eq_ok, accept_eq_ok] at h
  obtain ⟨_, _, ⟨-, rfl⟩, b, _, hb, _, _, ⟨hon, rfl, rfl⟩ | ⟨hon, rfl, rfl⟩, h⟩ := h
  · simp only [if_true, bind_eq_ok, expect_eq_ok, ident_eq_ok, since_eq_ok, pure_eq_ok] at h
    obtain ⟨_, _, ⟨hfail, -, rfl⟩, t, _, ht, ⟨n, sp⟩, _, ⟨hn, hsp, rfl⟩, b', _, hb', _, _,
      ⟨rfl, rfl⟩, rfl, rfl⟩ := h
    subst hsp
    exact .attemptOnFail hword (hs.block hb) hon hfail (hg.type ht) hn (hs.block hb')
  · simp only [Bool.false_eq_true, if_false, bind_eq_ok, since_eq_ok, pure_eq_ok] at h
    obtain ⟨_, _, ⟨rfl, rfl⟩, rfl, rfl⟩ := h
    exact .attempt hword (hs.block hb) hon

theorem keywordStmt_sound (hg : g.Sound) (hs : s.Sound) {k : Keyword}
    (hk : c.kind = .keyword k) (h : keywordStmt g s c.start k c = .ok (t, c')) :
    ReadsStmt .stmt c t c' := by
  unfold keywordStmt at h
  split at h
  · simp only [bind_eq_ok, advance_eq_ok, since_eq_ok, pure_eq_ok] at h
    obtain ⟨_, _, ⟨-, rfl⟩, b, _, hb, _, _, ⟨rfl, rfl⟩, rfl, rfl⟩ := h
    exact .lock hk (hs.block hb)
  · exact .ifElse (hs.ifElse h)
  · simp only [bind_eq_ok, advance_eq_ok, since_eq_ok, pure_eq_ok] at h
    obtain ⟨_, _, ⟨-, rfl⟩, e, _, he, b, _, hb, _, _, ⟨rfl, rfl⟩, rfl, rfl⟩ := h
    exact .whileLoop hk (hg.expr he) (hs.block hb)
  · exact foreach_sound hg hs hk h
  · simp only [bind_eq_ok, advance_eq_ok, at?_eq_ok] at h
    obtain ⟨_, _, ⟨-, rfl⟩, _, _, ⟨rfl, rfl⟩, h⟩ := h
    split at h
    · next hclose =>
      simp only [bind_eq_ok, expect_eq_ok, since_eq_ok, pure_eq_ok] at h
      obtain ⟨_, _, ⟨rfl, rfl⟩, _, _, ⟨hclose', -, rfl⟩, _, _, ⟨rfl, rfl⟩, rfl, rfl⟩ := h
      exact .giveBack hk (.missing (by simpa using hclose)) hclose'
    · next hopen =>
      simp only [bind_eq_ok, map_eq_ok, expect_eq_ok, since_eq_ok, pure_eq_ok] at h
      obtain ⟨_, _, ⟨e, he, rfl⟩, _, _, ⟨hclose, -, rfl⟩, _, _, ⟨rfl, rfl⟩, rfl, rfl⟩ := h
      exact .giveBack hk (.found (by simpa using hopen) (hg.expr he)) hclose
  · exact attempt_sound hg hs hk h
  · simp only [bind_eq_ok, advance_eq_ok, expect_eq_ok, since_eq_ok, pure_eq_ok] at h
    obtain ⟨_, _, ⟨-, rfl⟩, e, _, he, _, _, ⟨hclose, -, rfl⟩, _, _, ⟨rfl, rfl⟩, rfl, rfl⟩ := h
    exact .panic hk (hg.expr he) hclose
  · simp only [bind_eq_ok, advance_eq_ok, expect_eq_ok, since_eq_ok, pure_eq_ok] at h
    obtain ⟨_, _, ⟨-, rfl⟩, e, _, he, _, _, ⟨hclose, -, rfl⟩, _, _, ⟨rfl, rfl⟩, rfl, rfl⟩ := h
    exact .fail hk (hg.expr he) hclose
  · simp only [bind_eq_ok, advance_eq_ok, expect_eq_ok, since_eq_ok, pure_eq_ok] at h
    obtain ⟨_, _, ⟨-, rfl⟩, _, _, ⟨hclose, -, rfl⟩, _, _, ⟨rfl, rfl⟩, rfl, rfl⟩ := h
    exact .leave hk hclose
  · simp only [bind_eq_ok, advance_eq_ok, expect_eq_ok, since_eq_ok, pure_eq_ok] at h
    obtain ⟨_, _, ⟨-, rfl⟩, _, _, ⟨hclose, -, rfl⟩, _, _, ⟨rfl, rfl⟩, rfl, rfl⟩ := h
    exact .again hk hclose
  · exact declared_sound hg h
  · exact declared_sound hg h
  · exact declarationOrExpr_sound hg (by simp [hk]) h

theorem stmt_sound (hg : g.Sound) (hs : s.Sound) (h : stmt g s c = .ok (t, c')) :
    ReadsStmt .stmt c t c' := by
  simp only [stmt, bind_eq_ok, start_eq_ok, peek_eq_ok] at h
  obtain ⟨_, _, ⟨rfl, rfl⟩, k, _, ⟨hk, rfl⟩, h⟩ := h
  split at h
  · simp only [bind_eq_ok, since_eq_ok, pure_eq_ok] at h
    obtain ⟨b, _, hb, _, _, ⟨rfl, rfl⟩, rfl, rfl⟩ := h
    exact .blockStmt (hs.block hb)
  · exact declared_sound hg h
  · exact keywordStmt_sound hg hs hk h
  · next hplain _ _ => exact declarationOrExpr_sound hg (by rw [hk]; exact hplain) h

/-- How a list in braces ends or goes on. -/
def closingStep (c : Cursor) : Option (Bool × Cursor) :=
  if c.kind = .mark .closeBrace then some (true, c.advance)
  else if c.kind = .endOfFile then none
  else some (false, c)

theorem closingBrace_steps : Steps closingBrace closingStep := by
  intro c b c'
  by_cases hclose : c.kind = .mark .closeBrace
  · simp [closingBrace, closingStep, bind_eq_ok, accept_eq_ok, hclose, pure_eq_ok]
  have haccept : accept (.mark .closeBrace) c = .ok (false, c) := accept_eq_ok.mpr (by simp [hclose])
  have hat : at? .endOfFile c = .ok (c.kind == .endOfFile, c) := rfl
  unfold closingBrace closingStep
  rw [bind_of_ok haccept, if_neg (by simp), bind_of_ok hat, if_neg hclose]
  by_cases hend : c.kind = .endOfFile
  · simp [hend, map_eq_ok, unexpected_ne_ok]
  · simp [hend, pure_eq_ok]

theorem closingStep_stop (h : closingStep c = some (true, c')) :
    c.kind = .mark .closeBrace ∧ c.advance = c' := by
  unfold closingStep at h
  split at h
  · next hclose => exact ⟨hclose, by simpa using h⟩
  · split at h <;> simp at h

theorem closingStep_more (h : closingStep c = some (false, c')) :
    c.kind ≠ .mark .closeBrace ∧ c.kind ≠ .endOfFile ∧ c = c' := by
  unfold closingStep at h
  split at h
  · simp at h
  · next hclose =>
    split at h
    · simp at h
    · next hend => exact ⟨hclose, hend, by simpa using h⟩

theorem readsStmt_stmts {ss : List Stmt} (h : Repeats closingStep (ReadsStmt .stmt) c ss c') :
    ReadsStmt .stmts c ss c' := by
  induction h with
  | stop h =>
    obtain ⟨hclose, rfl⟩ := closingStep_stop h
    exact .noStmts hclose
  | more h first _ ih =>
    obtain ⟨hclose, hend, rfl⟩ := closingStep_more h
    exact .stmts hclose hend first ih

theorem bracedStmts_sound (hg : g.Sound) (hs : s.Sound) {b : Block}
    (h : bracedStmts g s c = .ok (b, c')) : ReadsStmt .block c b c' := by
  simp only [bracedStmts, bind_eq_ok, start_eq_ok, expect_eq_ok, since_eq_ok, pure_eq_ok] at h
  obtain ⟨_, _, ⟨rfl, rfl⟩, _, _, ⟨hopen, -, rfl⟩, ss, _, hss, _, _, ⟨rfl, rfl⟩, rfl, rfl⟩ := h
  exact .block hopen (readsStmt_stmts
    (repeats_of_many (R := ReadsStmt .stmt) closingBrace_steps (fun h => stmt_sound hg hs h) hss))

theorem ifStmt_sound (hg : g.Sound) (hs : s.Sound) (h : ifStmt g s c = .ok (t, c')) :
    ReadsStmt .ifElse c t c' := by
  simp only [ifStmt, ite_bind_eq, bind_eq_ok, start_eq_ok, expect_eq_ok, accept_eq_ok, since_eq_ok,
    pure_eq_ok] at h
  obtain ⟨_, _, ⟨rfl, rfl⟩, _, _, ⟨hword, -, rfl⟩, e, _, he, b, c₁, hb, _, _,
    ⟨helse, rfl, rfl⟩ | ⟨helse, rfl, rfl⟩, other, c₂, hother, _, _, ⟨rfl, rfl⟩, rfl, rfl⟩ := h
  · refine .condition hword (hg.expr he) (hs.block hb) ?_
    simp only [if_true, map_eq_ok, ifStmt.alternative, bind_eq_ok, at?_eq_ok] at hother
    obtain ⟨s', ⟨_, _, ⟨rfl, rfl⟩, hother⟩, rfl⟩ := hother
    split at hother
    · exact .elseIf helse (hs.ifElse hother)
    · simp only [bind_eq_ok, start_eq_ok, since_eq_ok, pure_eq_ok] at hother
      obtain ⟨_, _, ⟨rfl, rfl⟩, b, _, hb', _, _, ⟨rfl, rfl⟩, rfl, rfl⟩ := hother
      exact .elseBlock helse (hs.block hb')
  · simp only [Bool.false_eq_true, if_false, pure_eq_ok] at hother
    obtain ⟨rfl, rfl⟩ := hother
    exact .condition hword (hg.expr he) (hs.block hb) (.noElse helse)

end StmtGrammar

/-- The grammar of statements reads only what the relation allows, at every depth. -/
theorem stmtGrammar_sound {g : Grammar} (hg : g.Sound) (depth : Nat) :
    (stmtGrammar g depth).Sound := by
  induction depth with
  | zero => constructor <;> exact fun _ _ _ h => absurd h noProgress_ne_ok
  | succ depth ih =>
    exact ⟨fun _ _ _ h => StmtGrammar.bracedStmts_sound hg ih h,
      fun _ _ _ h => StmtGrammar.ifStmt_sound hg ih h⟩

end Durable
