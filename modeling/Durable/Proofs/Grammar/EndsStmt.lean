/-
Reading statements comes to an end.

A statement may be a block, which the same parsers read one level further down, but a block starts
with a brace; so here too a token is read before statements recurse.  The trial of a declaration is
the one place at which reading goes back, and it goes back to where the trial began.
-/
import Durable.Proofs.Grammar.EndsExpr

namespace Durable

open Durable.Parser

theorem Grammar.Consumes.mono {g : Grammar} {n m : Nat} (hg : g.Consumes n) (hm : m ≤ n) :
    g.Consumes m where
  type := hg.type.mono hm
  expr := hg.expr.mono hm
  binary floor := (hg.binary floor).mono hm
  unary := hg.unary.mono hm

/-- The parsers that statements recurse into come to an end and read a token. -/
structure StmtGrammar.Consumes (n : Nat) (s : StmtGrammar) : Prop where
  block : Parser.Consumes n s.block
  ifElse : Parser.Consumes n s.ifElse

namespace StmtGrammar.Consumes

variable {g : Grammar} {s : StmtGrammar} {n : Nat}

theorem localVar (hg : g.Consumes n) : Parser.Consumes n (StmtGrammar.localVar g) := by
  intro c hc
  refine .bind ((hg.annotations (by omega)).imp fun as c₁ h₁ _ => ?_)
  refine .bind (.accept nofun fun b c₂ h₂ _ => hg.type.bind (by omega) fun t c₃ h₃ => ?_)
  refine .bind (.ident fun name c₄ h₄ => .bind (.peek ?_))
  split
  · exact .bind .unexpected
  refine .bind (.accept nofun fun b' c₅ h₅ _ => ?_)
  split
  · refine hg.expr.some.bind (by omega) fun init c₆ h₆ => ?_
    exact .bind (.expect nofun fun _ c₇ h₇ => .pure (by omega))
  · exact .bind (.pure (.bind (.expect nofun fun _ c₆ h₆ => .pure (by omega))))

theorem exprOrAssign (hg : g.Consumes n) (origin : Nat) :
    Parser.Consumes n (StmtGrammar.exprOrAssign g origin) := by
  intro c hc
  refine hg.expr.bind hc fun e c₁ h₁ => .bind (.peek ?_)
  split
  · refine .bind (.advance fun _ c₂ h₂ _ => hg.expr.bind (by omega) fun f c₃ h₃ => ?_)
    exact .bind (.expect nofun fun _ c₄ h₄ => .bind (.since (.pure (by omega))))
  · exact .bind (.expect nofun fun _ c₂ h₂ => .bind (.since (.pure (by omega))))

theorem declarationOrExpr (hg : g.Consumes n) (origin : Nat) :
    Parser.Consumes n (StmtGrammar.declarationOrExpr g origin) := by
  intro c hc
  refine .bind (.attempt? (localVar hg c hc) (fun d c₁ h₁ => ?_) ?_)
  · exact .bind (.since (.pure h₁))
  · exact exprOrAssign hg origin c hc

theorem declared (hg : g.Consumes n) (origin : Nat) :
    Parser.Consumes n (do return Stmt.localVar (← StmtGrammar.localVar g) (← since origin)) :=
  fun _ hc => (localVar hg).bind hc fun _ _ h₁ => .bind (.since (.pure h₁))

theorem foreach (hg : g.Consumes n) (hs : s.Consumes n) (origin : Nat) :
    Parser.Consumes n (StmtGrammar.foreach g s origin) := by
  intro c hc
  refine .bind (.advance fun _ c₁ h₁ _ => hg.type.bind (by omega) fun t c₂ h₂ => ?_)
  refine .bind (.ident fun name c₃ h₃ => .bind (.expect nofun fun _ c₄ h₄ => ?_))
  refine hg.expr.bind (by omega) fun items c₅ h₅ => hs.block.bind (by omega) fun b c₆ h₆ => ?_
  exact .bind (.since (.pure (by omega)))

theorem attempt (hg : g.Consumes n) (hs : s.Consumes n) (origin : Nat) :
    Parser.Consumes n (StmtGrammar.attempt g s origin) := by
  intro c hc
  refine .bind (.advance fun _ c₁ h₁ _ => hs.block.bind (by omega) fun body c₂ h₂ => ?_)
  refine .bind (.accept nofun fun b c₃ h₃ _ => ?_)
  split
  · refine .bind (.expect nofun fun _ c₄ h₄ => hg.type.bind (by omega) fun t c₅ h₅ => ?_)
    refine .bind (.ident fun name c₆ h₆ => hs.block.bind (by omega) fun handler c₇ h₇ => ?_)
    exact .bind (.since (.pure (by omega)))
  · exact .bind (.since (.pure (by omega)))

/-- A statement that is a word, an expression and a semicolon. -/
theorem wordExpr (hg : g.Consumes n) (f : Expr → Span → Stmt) (origin : Nat) :
    Parser.Consumes n (do
      let _ ← advance
      let value ← g.expr
      let _ ← expect (.mark .semicolon)
      return f value (← since origin)) := by
  intro c hc
  refine .bind (.advance fun _ c₁ h₁ _ => hg.expr.bind (by omega) fun e c₂ h₂ => ?_)
  exact .bind (.expect nofun fun _ c₃ h₃ => .bind (.since (.pure (by omega))))

/-- A statement that is a word and a semicolon. -/
theorem wordAlone (f : Span → Stmt) (origin : Nat) : Parser.Consumes n (do
    let _ ← advance
    let _ ← expect (.mark .semicolon)
    return f (← since origin)) := by
  intro c hc
  refine .bind (.advance fun _ c₁ h₁ _ => .bind (.expect nofun fun _ c₂ h₂ => ?_))
  exact .bind (.since (.pure (by omega)))

theorem keywordStmt (hg : g.Consumes n) (hs : s.Consumes n) (origin : Nat) (k : Keyword) :
    Parser.Consumes n (StmtGrammar.keywordStmt g s origin k) := by
  intro c hc
  unfold StmtGrammar.keywordStmt
  split
  · refine .bind (.advance fun _ c₁ h₁ _ => hs.block.bind (by omega) fun b c₂ h₂ => ?_)
    exact .bind (.since (.pure (by omega)))
  · exact hs.ifElse c hc
  · refine .bind (.advance fun _ c₁ h₁ _ => hg.expr.bind (by omega) fun e c₂ h₂ => ?_)
    exact hs.block.bind (by omega) fun b c₃ h₃ => .bind (.since (.pure (by omega)))
  · exact foreach hg hs origin c hc
  · refine .bind (.advance fun _ c₁ h₁ _ => .bind (.at? ?_))
    split
    · refine .bind (.pure (.bind (.expect nofun fun _ c₂ h₂ => ?_)))
      exact .bind (.since (.pure (by omega)))
    · refine hg.expr.some.bind (by omega) fun e c₂ h₂ => .bind (.expect nofun fun _ c₃ h₃ => ?_)
      exact .bind (.since (.pure (by omega)))
  · exact attempt hg hs origin c hc
  · exact wordExpr hg .panic origin c hc
  · exact wordExpr hg .fail origin c hc
  · exact wordAlone .leave origin c hc
  · exact wordAlone .again origin c hc
  · exact declared hg origin c hc
  · exact declared hg origin c hc
  · exact declarationOrExpr hg origin c hc

theorem stmt (hg : g.Consumes n) (hs : s.Consumes n) :
    Parser.Consumes n (StmtGrammar.stmt g s) := by
  intro c hc
  refine .bind (.start (.bind (.peek ?_)))
  split
  · exact hs.block.bind hc fun b c₁ h₁ => .bind (.since (.pure h₁))
  · exact declared hg _ c hc
  · exact keywordStmt hg hs _ _ c hc
  · exact declarationOrExpr hg _ c hc

theorem closingBrace (c : Cursor) : Ends StmtGrammar.closingBrace c fun _ _ => True := by
  refine .bind (.accept nofun fun b c₁ h₁ _ => ?_)
  split
  · exact .pure trivial
  refine .bind (.at? ?_)
  split
  · exact .bind .unexpected
  · exact .pure trivial

theorem stmtRounds (hg : g.Consumes n) (hs : s.Consumes n) :
    Rounds n (round StmtGrammar.closingBrace (StmtGrammar.stmt g s)) :=
  (stmt hg hs).rounds closingBrace

theorem bracedStmts (hg : g.Consumes n) (hs : s.Consumes n) :
    Parser.Consumes (n + 1) (StmtGrammar.bracedStmts g s) := by
  intro c hc
  refine .bind (.start (.bind (.expect nofun fun _ c₁ h₁ => ?_)))
  refine .bind ((Ends.many (stmtRounds hg hs) (by omega)).imp fun ss c₂ h₂ _ => ?_)
  exact .bind (.since (.pure (by omega)))

theorem alternative (hs : s.Consumes n) :
    Parser.Consumes n (StmtGrammar.ifStmt.alternative s) := by
  intro c hc
  refine .bind (.at? ?_)
  split
  · exact hs.ifElse c hc
  · exact .bind (.start (hs.block.bind hc fun b c₁ h₁ => .bind (.since (.pure h₁))))

theorem ifStmt (hg : g.Consumes n) (hs : s.Consumes n) :
    Parser.Consumes (n + 1) (StmtGrammar.ifStmt g s) := by
  intro c hc
  refine .bind (.start (.bind (.expect nofun fun _ c₁ h₁ => ?_)))
  refine hg.expr.bind (by omega) fun e c₂ h₂ => hs.block.bind (by omega) fun b c₃ h₃ => ?_
  refine .bind (.accept nofun fun otherwise c₄ h₄ _ => ?_)
  split
  · refine (alternative hs).some.bind (by omega) fun other c₅ h₅ => ?_
    exact .bind (.since (.pure (by omega)))
  · exact .bind (.pure (.bind (.since (.pure (by omega)))))

/-- One level more of the grammar is good for one token more. -/
theorem next (hg : g.Consumes n) (hs : s.Consumes n) : (s.next g).Consumes (n + 1) where
  block := bracedStmts hg hs
  ifElse := ifStmt hg hs

end StmtGrammar.Consumes

/-- **A grammar of statements is good for fewer tokens than it is deep**, over one of expressions
that is. -/
theorem stmtGrammar_consumes {g : Grammar} {depth : Nat} (hg : g.Consumes depth) :
    (stmtGrammar g depth).Consumes depth := by
  suffices ∀ n ≤ depth, (stmtGrammar g n).Consumes n from this depth (Nat.le_refl _)
  intro n hn
  induction n with
  | zero => exact ⟨fun _ => nofun, fun _ => nofun⟩
  | succ n ih => exact (ih (by omega)).next (hg.mono (by omega))

end Durable
