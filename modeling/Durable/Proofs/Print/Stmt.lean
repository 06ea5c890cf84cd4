/-
Printed statements are read again.

Statements end in a semicolon or a brace, so little of what follows matters to them: whether the
word `on` stands behind a block, and whether `else` does.  Neither starts a statement, and each
statement starts with the kind of token that it started with, so the tokens that follow are of the
kinds that followed.
-/
import Durable.Proofs.Grammar.Inits
import Durable.Proofs.Print.Reprint

namespace Durable

open Text

variable {src rest : List Char} {c c₁ c₂ c₃ c' : Cursor}

/-! ### Texts of statements -/

theorem isBlank_lineStart (depth : Nat) : ∀ ch ∈ (lineStart depth).toList, isBlank ch = true := by
  intro ch hch
  have : ch = '\n' ∨ ch = ' ' := by
    simp only [lineStart, String.toList_append, String.toList_ofList, List.mem_append] at hch
    rcases hch with hch | hch
    · exact .inl (by simpa using hch)
    · exact .inr (List.eq_of_mem_replicate hch)
  rcases this with rfl | rfl <;> decide

theorem lineStart_cons (depth : Nat) : ∃ more, (lineStart depth).toList = '\n' :: more :=
  ⟨List.replicate (4 * depth) ' ', by simp [lineStart]⟩

theorem setsApart_lineStart (depth : Nat) : SetsApart (lineStart depth).toList where
  blank := isBlank_lineStart depth
  clear more := by
    obtain ⟨line, hline⟩ := lineStart_cons depth
    rw [hline]
    exact .cons (by decide) _

/-- How the printer writes what a symbol reads. -/
def StmtSym.text (depth : Nat) : (s : StmtSym) → s.Result → List Char
  | stmt, s | ifElse, s => (s.print depth).toList
  | block, b => (b.print depth).toList
  | stmts, ss => (printStmts (depth + 1) ss).toList ++ ((lineStart depth).toList ++ ['\x7d'])
  | otherwise, s => s.elim [] fun s => " else ".toList ++ (s.print depth).toList

/-- What a symbol reads, without its places. -/
def StmtSym.erase : (s : StmtSym) → s.Result → s.Result
  | stmt, s | ifElse, s => s.erase
  | block, b => b.erase
  | stmts, ss => ss.map Stmt.erase
  | otherwise, s => s.map Stmt.erase

/-- What may stand behind the text of a symbol that stopped at a cursor: anything behind a block, else
the kind of token that stood there. -/
def StmtSym.Stop : StmtSym → Cursor → Cursor → Prop
  | block, _, _ | stmts, _, _ => True
  | _, c, d => d.kind = c.kind

/-- The text of a statement or a part of one is read as it again. -/
def StmtReprints (src : List Char) (s : StmtSym) (c : Cursor) (t : s.Result) (c' : Cursor) : Prop :=
  ∀ depth rest, (∀ d : Cursor, d.Before src rest → s.Stop c' d) →
    Runs src (s.text depth t ++ rest)
      (fun d d' => d.kind = c.kind ∧ ∃ t', ReadsStmt s d t' d' ∧ s.erase t' = s.erase t) rest

/-- An expression in front of a token that stood behind it. -/
theorem Reads.runs_expr {e : Expr} (h : Reads .expr c e c₁) (hp : c.Plain) {k : TokenKind}
    (hc : c₁.kind = k) (hk : k ≠ .mark .openBracket) {R : Cursor → Cursor → Prop}
    {mid : List Char} (hclear : Clear mid) (hmid : Runs src mid R rest)
    (hkind : ∀ d d', R d d' → d.kind = k) :
    Runs src (e.print.toList ++ mid) (fun d d' => d.kind = c.kind ∧
      ∃ e' d₁, Reads .expr d e' d₁ ∧ e'.erase = e.erase ∧ R d₁ d') rest := by
  have hexpr : Reprints src .expr c e c₁.Follows := h.back hp
  refine ((hexpr.runs hclear (hmid.follows hkind hc hk)).seq hmid).imp ?_
  rintro d d' ⟨d₁, ⟨hk, e', hread, he⟩, hR⟩
  exact ⟨hk, e', d₁, hread, he, hR⟩

/-- A type in front of a token that stood behind it. -/
theorem Reads.runs_typeBefore {t : TypeDesc} (h : Reads .type c t c₁) (hp : c.Plain) {k : TokenKind}
    (hc : c₁.kind = k) (hk : k ≠ .mark .openBracket) {R : Cursor → Cursor → Prop}
    {mid : List Char} (hclear : Clear mid) (hmid : Runs src mid R rest)
    (hkind : ∀ d d', R d d' → d.kind = k) :
    Runs src (t.print.toList ++ mid) (fun d d' => d.kind = c.kind ∧
      ∃ t' d₁, Reads .type d t' d₁ ∧ t'.erase = t.erase ∧ R d₁ d') rest := by
  have htype : Reprints src .type c t c₁.Follows := h.back hp
  refine ((htype.runs hclear (hmid.follows hkind hc hk)).seq hmid).imp ?_
  rintro d d' ⟨d₁, ⟨hk, t', hread, ht⟩, hR⟩
  exact ⟨hk, t', d₁, hread, ht, hR⟩

/-- A type in front of a name that stood behind it. -/
theorem Reads.runs_type {t : TypeDesc} {n : String} (h : Reads .type c t c₁) (hp : c.Plain)
    (hc : c₁.kind = .ident n) {R : Cursor → Cursor → Prop} {mid : List Char}
    (hclear : Clear mid) (hmid : Runs src mid R rest) :
    Runs src (t.print.toList ++ ' ' :: (n.toList ++ mid)) (fun d d' => d.kind = c.kind ∧
      ∃ t' d₁, Reads .type d t' d₁ ∧ t'.erase = t.erase ∧ d₁.kind = .ident n ∧
        R d₁.advance d') rest := by
  have hword := (hp.reaches h.reaches).kind (by simp [hc])
  rw [hc] at hword
  have hname := ((Runs.token hword (hclear.ends (by simp))).seq hmid).space
  refine (h.runs_typeBefore hp hc (by simp) (.cons (by decide) _) hname
    (Runs.seq_kind fun _ _ h => h.1)).imp ?_
  rintro d d' ⟨hk, t', d₁, hread, ht, _, ⟨hk₁, rfl⟩, hR⟩
  exact ⟨hk, t', d₁, hread, ht, hk₁, hR⟩

theorem runs_semicolon : Runs src (';' :: rest)
    (fun d d' => d.kind = .mark .semicolon ∧ d' = d.advance) rest :=
  (Runs.close .semicolon rfl).congr (by simp [Mark.text])

theorem clear_semicolon : Clear (';' :: rest) := .cons (by decide) rest

/-- A word in front of a blank. -/
theorem runs_word (k : Keyword) : Runs src (k.text.toList ++ ' ' :: rest)
    (fun d d' => d.kind = .keyword k ∧ d' = d.advance) rest := by
  refine ((Runs.keyword k (headFails_cons.mpr rfl)).seq Runs.here.space).imp ?_
  rintro d d' ⟨_, hk, rfl⟩
  exact hk

/-! ### Statements -/

theorem ReadsStmt.block_kind {b : Block} (h : ReadsStmt .block c b c₁) :
    c.kind = .mark .openBrace := by
  cases h with
  | block opening => exact opening

/-- A condition, or the items of a loop, in front of a block. -/
theorem Reads.runs_body {e : Expr} {b : Block} (h : Reads .expr c e c₁) (hp : c.Plain)
    (body : ReadsStmt .block c₁ b c₂) {depth : Nat}
    (hbody : Runs src ((b.print depth).toList ++ rest) (fun d d' => d.kind = c₁.kind ∧
      ∃ b', ReadsStmt .block d b' d' ∧ b'.erase = b.erase) rest) :
    Runs src (e.print.toList ++ ' ' :: ((b.print depth).toList ++ rest)) (fun d d' =>
      d.kind = c.kind ∧ ∃ e' d₁ b', Reads .expr d e' d₁ ∧ e'.erase = e.erase ∧
        ReadsStmt .block d₁ b' d' ∧ b'.erase = b.erase) rest := by
  refine (h.runs_expr hp body.block_kind (by simp) (.cons (by decide) _) hbody.space
    fun _ _ h => h.1.trans body.block_kind).imp ?_
  rintro d d' ⟨hk, e', d₁, he', he, -, b', hb', hb⟩
  exact ⟨hk, e', d₁, b', he', he, hb', hb⟩

theorem stmts_newline (depth : Nat) (ss : List Stmt) :
    ∃ more, StmtSym.text depth .stmts ss = '\n' :: more := by
  cases ss with
  | nil =>
    obtain ⟨more, hmore⟩ := lineStart_cons depth
    exact ⟨more ++ ['\x7d'], by simp [StmtSym.text, printStmts, hmore]⟩
  | cons s ss =>
    obtain ⟨more, hmore⟩ := lineStart_cons (depth + 1)
    simp [StmtSym.text, printStmts, hmore]

/-- **What a symbol of statements reads is read again from its text.** -/
theorem ReadsStmt.back {s : StmtSym} {t : s.Result} (h : ReadsStmt s c t c') (hp : c.Plain) :
    StmtReprints src s c t c' := by
  induction h with
  | localVar decl =>
    intro depth rest hstop
    have hdecl : ReprintsDecl src _ _ := decl.back hp
    refine (hdecl rest).imp ?_
    rintro d d' ⟨hk, v', hread, hv⟩
    exact ⟨hk, _, .localVar hread, congrArg (Stmt.localVar · .synthetic) hv⟩
  | @assign c c₁ _ _ _ op plain target sign value closing =>
    intro depth rest hstop
    have hvalue := value.runs_expr (hp.reaches target.reaches).advance closing (by simp)
      clear_semicolon (runs_semicolon : Runs src _ _ rest) fun _ _ h => h.1
    have hsign := ((Runs.mark op.mark (Mark.ends_cons (x := ' ') (by cases op <;> decide)
      _)).seq hvalue.space).space
    refine ((target.runs_expr hp sign (by cases op <;> simp [AssignOp.mark]) (.cons (by decide) _)
      hsign (Runs.seq_kind fun _ _ h => h.1)).imp ?_).congr (by simp [StmtSym.text, Stmt.print])
    rintro d d' ⟨hk, e', d₁, he', he, _, ⟨hk₁, rfl⟩, -, f', d₂, hf', hf, hk₂, rfl⟩
    exact ⟨hk, _, .assign (hk ▸ plain) he' hk₁ hf' hk₂, by simp [StmtSym.erase, he, hf]⟩
  | expr plain value closing =>
    intro depth rest hstop
    refine ((value.runs_expr hp closing (by simp) clear_semicolon runs_semicolon
      fun _ _ h => h.1).imp ?_).congr (by simp [StmtSym.text, Stmt.print])
    rintro d d' ⟨hk, e', d₁, he', he, hk₁, rfl⟩
    exact ⟨hk, _, .expr (hk ▸ plain) he' hk₁, by simp [StmtSym.erase, he]⟩
  | lock word body ih =>
    intro depth rest hstop
    refine (((runs_word .kwLock).seq (ih hp.advance depth _ fun _ _ => trivial)).imp ?_).congr
      (by simp [StmtSym.text, Stmt.print, Keyword.text])
    rintro d d' ⟨_, ⟨hk, rfl⟩, -, b', hread, hb⟩
    refine ⟨hk.trans word.symm, _, .lock hk hread, ?_⟩
    simp_all [StmtSym.erase]
  | ifElse inner ih =>
    intro depth rest hstop
    refine (ih hp depth _ hstop).imp ?_
    rintro d d' ⟨hk, s', hread, hs⟩
    exact ⟨hk, s', .ifElse hread, hs⟩
  | whileLoop word condition body ih =>
    intro depth rest hstop
    have hbody := ih (hp.advance.reaches condition.reaches) depth rest fun _ _ => trivial
    refine (((runs_word .kwWhile).seq (condition.runs_body hp.advance body hbody)).imp ?_).congr
      (by simp [StmtSym.text, Stmt.print, Keyword.text])
    rintro d d' ⟨_, ⟨hk, rfl⟩, -, e', d₁, b', he', he, hb', hb⟩
    refine ⟨hk.trans word.symm, _, .whileLoop hk he' hb', ?_⟩
    simp [StmtSym.erase, he, hb]
  | foreach word type name isIn items body ih =>
    intro depth rest hstop
    have hp₁ := hp.advance.reaches type.reaches
    have hp₂ := hp₁.advance.advance
    have hitems := items.runs_body hp₂ body (ih (hp₂.reaches items.reaches) depth rest
      fun _ _ => trivial)
    have hname := type.runs_type hp.advance name (.cons (by decide) _)
      ((runs_word .kwIn).seq hitems).space
    refine (((runs_word .kwForeach).seq hname).imp ?_).congr
      (by simp [StmtSym.text, Stmt.print, Keyword.text])
    rintro d d' ⟨_, ⟨hk, rfl⟩, -, t', d₁, ht', ht, hn, _, ⟨hin, rfl⟩, -, e', d₂, b', he', he, hb', hb⟩
    refine ⟨hk.trans word.symm, _, .foreach hk ht' hn hin he' hb', ?_⟩
    simp [StmtSym.erase, ht, he, hb, Ident.erase]
  | @giveBack c c₁ e word value closing =>
    intro depth rest hstop
    cases value with
    | missing test =>
      refine (((Runs.keyword .kwReturn (clear_semicolon.word)).seq runs_semicolon).imp ?_).congr
        (by simp [StmtSym.text, Stmt.print, Keyword.text])
      rintro d d' ⟨_, ⟨hk, rfl⟩, hk₁, rfl⟩
      refine ⟨hk.trans word.symm, _, .giveBack hk (.missing (by simp [hk₁])) hk₁, ?_⟩
      simp [StmtSym.erase]
    | found test value =>
      have hvalue := value.runs_expr hp.advance closing (by simp) clear_semicolon
        (runs_semicolon : Runs src _ _ rest) fun _ _ h => h.1
      refine (((runs_word .kwReturn).seq hvalue).imp ?_).congr
        (by simp [StmtSym.text, Stmt.print, Keyword.text])
      rintro d d' ⟨_, ⟨hk, rfl⟩, hk₁, e', d₁, he', he, hk₂, rfl⟩
      refine ⟨hk.trans word.symm, _, .giveBack hk (.found (by rw [hk₁]; exact test) he') hk₂, ?_⟩
      simp [StmtSym.erase, he]
  | attempt word body alone ih =>
    intro depth rest hstop
    refine (((runs_word .kwDo).seq (ih hp.advance depth _ fun _ _ => trivial)).before.imp ?_).congr
      (by simp [StmtSym.text, Stmt.print, Keyword.text])
    rintro d d' ⟨⟨_, ⟨hk, rfl⟩, -, b', hb', hb⟩, hd'⟩
    refine ⟨hk.trans word.symm, _, .attempt hk hb' (hstop d' hd' ▸ alone), ?_⟩
    simpa [StmtSym.erase] using hb
  | attemptOnFail word body on fail type name handler ih ih' =>
    intro depth rest hstop
    have hp₁ := (hp.advance.reaches body.reaches).advance.advance
    have hhandler := ih' (hp₁.reaches type.reaches).advance depth rest fun _ _ => trivial
    have hon := ((runs_word .kwOn).seq ((runs_word .kwFail).seq
      (type.runs_type hp₁ name (.cons (by decide) _) hhandler.space))).space
    refine (((runs_word .kwDo).seq ((ih hp.advance depth _ fun _ _ => trivial).seq hon)).imp ?_).congr
      (by simp [StmtSym.text, Stmt.print, Keyword.text])
    rintro d d' ⟨_, ⟨hk, rfl⟩, d₁, ⟨-, b', hb', hb⟩, _, ⟨hk₁, rfl⟩, _, ⟨hk₂, rfl⟩, -, t', d₂, ht', ht,
      hn, -, h', hh', hh⟩
    refine ⟨hk.trans word.symm, _, .attemptOnFail hk hb' hk₁ hk₂ ht' hn hh', ?_⟩
    simp_all [StmtSym.erase, Ident.erase]
  | blockStmt body ih =>
    intro depth rest hstop
    refine ((ih hp depth _ fun _ _ => trivial).imp ?_).congr (by simp [StmtSym.text, Stmt.print])
    rintro d d' ⟨hk, b', hb', hb⟩
    refine ⟨hk, _, .blockStmt hb', ?_⟩
    simpa [StmtSym.erase] using hb
  | panic word value closing =>
    intro depth rest hstop
    refine (((runs_word .kwPanic).seq (value.runs_expr hp.advance closing (by simp) clear_semicolon
      runs_semicolon fun _ _ h => h.1)).imp ?_).congr
      (by simp [StmtSym.text, Stmt.print, Keyword.text])
    rintro d d' ⟨_, ⟨hk, rfl⟩, -, e', d₁, he', he, hk₁, rfl⟩
    exact ⟨hk.trans word.symm, _, .panic hk he' hk₁, by simp [StmtSym.erase, he]⟩
  | fail word value closing =>
    intro depth rest hstop
    refine (((runs_word .kwFail).seq (value.runs_expr hp.advance closing (by simp) clear_semicolon
      runs_semicolon fun _ _ h => h.1)).imp ?_).congr
      (by simp [StmtSym.text, Stmt.print, Keyword.text])
    rintro d d' ⟨_, ⟨hk, rfl⟩, -, e', d₁, he', he, hk₁, rfl⟩
    exact ⟨hk.trans word.symm, _, .fail hk he' hk₁, by simp [StmtSym.erase, he]⟩
  | leave word closing =>
    intro depth rest hstop
    refine (((Runs.keyword .kwBreak (clear_semicolon.word)).seq runs_semicolon).imp ?_).congr
      (by simp [StmtSym.text, Stmt.print, Keyword.text])
    rintro d d' ⟨_, ⟨hk, rfl⟩, hk₁, rfl⟩
    exact ⟨hk.trans word.symm, _, .leave hk hk₁, rfl⟩
  | again word closing =>
    intro depth rest hstop
    refine (((Runs.keyword .kwContinue (clear_semicolon.word)).seq runs_semicolon).imp ?_).congr
      (by simp [StmtSym.text, Stmt.print, Keyword.text])
    rintro d d' ⟨_, ⟨hk, rfl⟩, hk₁, rfl⟩
    exact ⟨hk.trans word.symm, _, .again hk hk₁, rfl⟩
  | @block c c₁ ss opening list ih =>
    intro depth rest hstop
    have hlist := ih hp.advance depth rest hstop
    have hopen : (TokenKind.mark .openBrace).Ends (StmtSym.text depth .stmts ss ++ rest) := by
      obtain ⟨more, hmore⟩ := stmts_newline depth ss
      rw [hmore]
      exact Mark.ends_cons (by decide) _
    refine (((Runs.mark .openBrace hopen).seq hlist).imp ?_).congr
      (by simp [StmtSym.text, Block.print, Mark.text])
    rintro d d' ⟨_, ⟨hk, rfl⟩, -, ss', hss', hss⟩
    refine ⟨hk.trans opening.symm, _, .block hk hss', ?_⟩
    simp_all [StmtSym.erase]
  | noStmts closing =>
    intro depth rest hstop
    refine (((Runs.close .closeBrace rfl).blanks (isBlank_lineStart depth)).imp ?_).congr
      (by simp [StmtSym.text, printStmts, Mark.text])
    rintro d d' ⟨hk, rfl⟩
    exact ⟨hk.trans closing.symm, [], .noStmts hk, rfl⟩
  | stmts more open' first others ih ih' =>
    intro depth rest hstop
    have hothers := ih' (hp.reaches first.reaches) depth rest hstop
    have hfirst := ih hp (depth + 1) _ fun d hd => hothers.kind_eq (fun _ _ h => h.1) hd
    refine (((hfirst.seq hothers).blanks (isBlank_lineStart (depth + 1))).imp ?_).congr
      (by simp [StmtSym.text, printStmts])
    rintro d d' ⟨d₁, ⟨hk, s', hs', hs⟩, -, ss', hss', hss⟩
    refine ⟨hk, _, .stmts (hk ▸ more) (hk ▸ open') hs' hss', ?_⟩
    simp_all [StmtSym.erase]
  | @condition c c₁ c₂ c₃ e b o word condition body other ih ih' =>
    intro depth rest hstop
    have hp₁ := hp.advance.reaches condition.reaches
    have hother := ih' (hp₁.reaches body.reaches) depth rest hstop
    have hbody := ih hp₁ depth (StmtSym.text depth .otherwise o ++ rest) fun _ _ => trivial
    have hcondition := condition.runs_body hp.advance body hbody
    refine (((runs_word .kwIf).seq (hcondition.seq hother)).imp ?_).congr (by
      cases o <;> simp [StmtSym.text, Stmt.print, Keyword.text])
    rintro d d' ⟨_, ⟨hk, rfl⟩, d₂, ⟨-, e', d₁, b', he', he, hb', hb⟩, -, o', ho', ho⟩
    refine ⟨hk.trans word.symm, _, .condition hk he' hb' ho', ?_⟩
    have ho : o'.map Stmt.erase = o.map Stmt.erase := ho
    simp [StmtSym.erase, he, hb, ho]
  | noElse other =>
    intro depth rest hstop
    refine ⟨id, fun d hd => ⟨d, ⟨hstop d hd, none, .noElse (hstop d hd ▸ other), rfl⟩, hd⟩⟩
  | elseIf word inner ih =>
    intro depth rest hstop
    refine (((runs_word .kwElse).seq (ih hp.advance depth _ hstop)).space.imp ?_).congr
      (by simp [StmtSym.text, Keyword.text])
    rintro d d' ⟨_, ⟨hk, rfl⟩, -, s', hs', hs⟩
    exact ⟨hk.trans word.symm, _, .elseIf hk hs', congrArg some hs⟩
  | elseBlock word body ih =>
    intro depth rest hstop
    refine (((runs_word .kwElse).seq (ih hp.advance depth _ fun _ _ => trivial)).space.imp ?_).congr
      (by simp [StmtSym.text, Stmt.print, Keyword.text])
    rintro d d' ⟨_, ⟨hk, rfl⟩, -, b', hb', hb⟩
    refine ⟨hk.trans word.symm, _, .elseBlock hk hb', ?_⟩
    simp_all [StmtSym.erase]

end Durable
