/-
Printed expressions are read again.

One lemma for each production of expressions: where its parts are read again from the way they are
printed, so is the whole.  The printer adds no parentheses, so an operand must still stop where it
stopped: behind it stands the operator that stood there, or something that stops every expression.
-/
import Durable.Proofs.Print.Record

namespace Durable

open Text

variable {src rest : List Char} {c c₁ c₂ c₃ c' d : Cursor} {e f g : Expr} {t : TypeDesc}
  {stop : Cursor → Prop} {sp : Span} {floor : Nat}

/-! ### Operators -/

namespace Reprints

theorem condition (h : Reprints src (.binary 0) c e c₁.Follows)
    (alone : c₁.kind ≠ .mark .question) : Reprints src .expr c e c₁.Follows where
  opens := h.opens
  runs _ hclear hstop := by
    refine (h.runs hclear hstop).before.imp ?_
    rintro d d' ⟨⟨hk, e', hread, he⟩, hd'⟩
    exact ⟨hk, e', .condition hread ((hstop d' hd').ne alone rfl), he⟩

/-- The parts of a conditional need not have stood together before. -/
theorem conditional (condition : Reprints src (.binary 0) c e (·.kind = .mark .question))
    (ifTrue : Reprints src .expr c₁ f (·.kind = .mark .colon))
    (ifFalse : Reprints src .expr c₂ g stop) :
    Reprints src .expr c (.conditional e f g sp) stop where
  opens := condition.opens.extend (by simp [Sym.text, Expr.print])
  runs rest hclear hstop := by
    have hfalse := ((Runs.close .colon rfl).seq (ifFalse.runs hclear hstop).space).space
    have htrue := ifTrue.runs (.cons (by decide) _)
      fun _ hd => hfalse.kind_eq (Runs.seq_kind fun _ _ h => h.1) hd
    have hchoice := ((Runs.close .question rfl).seq (htrue.seq hfalse).space).space
    have htest := condition.runs (.cons (by decide) _)
      fun _ hd => hchoice.kind_eq (Runs.seq_kind fun _ _ h => h.1) hd
    refine ((htest.seq hchoice).imp ?_).congr (by simp [Sym.text, Expr.print, Mark.text])
    rintro d d' ⟨d₁, ⟨hk, e', he', he⟩, _, ⟨hk₁, rfl⟩, d₂, ⟨-, f', hf', hf⟩, _, ⟨hk₂, rfl⟩, -, g',
      hg', hg⟩
    refine ⟨hk, _, .conditional he' hk₁ hf' hk₂ hg', ?_⟩
    simp_all [Sym.erase]

theorem operand (h : Reprints src .unary c e stop) : Reprints src (.joining floor) c e stop where
  opens := h.opens
  runs _ hclear hstop := (h.runs hclear hstop).imp fun _ _ ⟨hk, e', hread, he⟩ =>
    ⟨hk, e', .operand hread, he⟩

theorem operator {op : BinaryOp} (left : Reprints src (.joining floor) c e c₁.Follows)
    (mark : c₁.kind = .mark op.mark) (tight : floor ≤ op.precedence)
    (right : Reprints src (.binary (op.precedence + 1)) c₁.advance f stop) :
    Reprints src (.joining floor) c (.binary op e f sp) stop where
  opens := left.opens.extend (by simp [Sym.text, Expr.print])
  runs rest hclear hstop := by
    have hright := ((Runs.mark op.mark (Mark.ends_cons (x := ' ')
      (by cases op <;> decide) _)).seq (right.runs hclear hstop).space).space
    have hleft := left.runs (.cons (by decide) _)
      (hright.follows (Runs.seq_kind fun _ _ h => h.1) mark (by cases op <;> simp [BinaryOp.mark]))
    refine ((hleft.seq hright).imp ?_).congr (by simp [Sym.text, Expr.print])
    rintro d d' ⟨d₁, ⟨hk, e', he', he⟩, _, ⟨hk₁, rfl⟩, -, f', hf', hf⟩
    refine ⟨hk, _, .operator he' hk₁ tight hf', ?_⟩
    simp_all [Sym.erase]

theorem typeTest (left : Reprints src (.joining floor) c e c₁.Follows)
    (word : c₁.kind = .keyword .kwIs) (tight : floor ≤ typeTestPrecedence)
    (right : Reprints src .type c₁.advance t c₂.Follows) :
    Reprints src (.joining floor) c (.typeTest e t sp) c₂.Follows where
  opens := left.opens.extend (by simp [Sym.text, Expr.print])
  runs rest hclear hstop := by
    have hright := ((Runs.keyword .kwIs (headFails_cons.mpr rfl)).seq
      (right.runs hclear hstop).space).space
    have hleft := left.runs (.cons (by decide) _)
      (hright.follows (Runs.seq_kind fun _ _ h => h.1) word (by simp))
    refine ((hleft.seq hright).imp ?_).congr (by simp [Sym.text, Expr.print, Keyword.text])
    rintro d d' ⟨d₁, ⟨hk, e', he', he⟩, _, ⟨hk₁, rfl⟩, -, t', ht', ht⟩
    refine ⟨hk, _, .typeTest he' hk₁ tight ht', ?_⟩
    simp_all [Sym.erase]

theorem binary (chain : Reprints src (.joining floor) c e stop)
    (ends : ∀ d, stop d → d.EndsOperand floor) : Reprints src (.binary floor) c e stop where
  opens := chain.opens
  runs _ hclear hstop := by
    refine (chain.runs hclear hstop).before.imp ?_
    rintro d d' ⟨⟨hk, e', hread, he⟩, hd'⟩
    exact ⟨hk, e', .binary hread (ends d' (hstop d' hd')), he⟩

/-- An operator is read in front of its operand. -/
theorem runs_unaryOp {k : TokenKind} {op : UnaryOp} (h : Grammar.unaryOp? k = some op) :
    Opens op.text.toList ∧ ∀ more, Opens more →
      Runs src (op.text.toList ++ more) (fun d d' => d.kind = k ∧ d' = d.advance) more := by
  have sign : ∀ (m : Mark) {ch : Char}, m.text.toList = [ch] → m ≠ .dot → opensPhrase ch = true →
      Opens m.text.toList ∧ ∀ more, Opens more → Runs src (m.text.toList ++ more)
        (fun d d' => d.kind = .mark m ∧ d' = d.advance) more := fun m _ htext hm hch =>
    ⟨htext ▸ .char _ hch, fun more hmore => .mark _ (hmore.ends hm)⟩
  have word : ∀ w : Keyword, Opens (w.text.toList ++ [' ']) ∧ ∀ more, Opens more →
      Runs src (w.text.toList ++ [' '] ++ more) (fun d d' => d.kind = .keyword w ∧ d' = d.advance)
        more := fun w => ⟨.keyword w _, fun more _ => by
      have hspace : Runs src _ _ more := Runs.here.space
      refine (((Runs.keyword w (headFails_cons.mpr rfl)).seq hspace).imp ?_).congr (by simp)
      rintro d d' ⟨d₁, hk, rfl⟩
      exact hk⟩
  unfold Grammar.unaryOp? at h
  split at h <;> cases h
  · exact sign .minus rfl (by decide) (by decide)
  · exact sign .plus rfl (by decide) (by decide)
  · exact sign .bang rfl (by decide) (by decide)
  · exact word .kwCheck
  · exact word .kwCheckpanic
  · exact word .kwWait
  · exact word .kwStart

theorem unary {op : UnaryOp} (word : Grammar.unaryOp? c.kind = some op)
    (inner : Reprints src .unary c.advance e stop) :
    Reprints src .unary c (.unary op e sp) stop where
  opens :=
    have hop : Opens _ ∧ ∀ more, Opens more → Runs src _ _ more := runs_unaryOp word
    hop.1.extend (by simp [Sym.text, Expr.print])
  runs rest hclear hstop := by
    have hinner := inner.runs hclear hstop
    refine ((((runs_unaryOp word).2 _ (inner.opens.append _)).seq hinner).imp ?_).congr
      (by simp [Sym.text, Expr.print])
    rintro d d' ⟨_, ⟨hk, rfl⟩, -, e', hread, he⟩
    exact ⟨hk, _, .unary (hk ▸ word) hread, congrArg (Expr.unary op · .synthetic) he⟩

theorem cast (type : ReprintsArgument src t) (hc : c.kind = .mark .less)
    (inner : Reprints src .unary c₁ e stop) :
    Reprints src .unary c (.cast t e sp) stop where
  opens := (Opens.char '<' (by decide)).extend (by simp [Sym.text, Expr.print])
  runs rest hclear hstop := by
    refine (((type ((inner.opens.append _).ends (by decide))).seq
      (inner.runs hclear hstop)).imp ?_).congr (by simp [Sym.text, Expr.print])
    rintro d d' ⟨d₁, ⟨hk, t', htype, ht⟩, -, e', hread, he⟩
    refine ⟨hk.trans hc.symm, _, .cast htype hread, ?_⟩
    simp_all [Sym.erase]

theorem bare (h : Reprints src .accessed c e stop) : Reprints src .unary c e stop where
  opens := h.opens
  runs _ hclear hstop := (h.runs hclear hstop).imp fun _ _ ⟨hk, e', hread, he⟩ =>
    ⟨hk, e', .bare hread, he⟩

/-! ### Accesses and calls -/

theorem accessed (h : Reprints src .accessing c e stop) (ends : ∀ d, stop d → d.EndsAccess) :
    Reprints src .accessed c e stop where
  opens := h.opens
  runs _ hclear hstop := by
    refine (h.runs hclear hstop).before.imp ?_
    rintro d d' ⟨⟨hk, e', hread, he⟩, hd'⟩
    exact ⟨hk, e', .accessed hread (ends d' (hstop d' hd')), he⟩

theorem primary (h : Reprints src .primary c e stop) : Reprints src .accessing c e stop where
  opens := h.opens
  runs _ hclear hstop := (h.runs hclear hstop).imp fun _ _ ⟨hk, e', hread, he⟩ =>
    ⟨hk, e', .primary hread, he⟩

end Reprints

/-- The texts of the arguments of a call, one by one. -/
theorem printArgs_text (as : List Arg) :
    (printArgs as).map String.toList = as.map (Sym.text .arg) := by
  induction as with
  | nil => rfl
  | cons a as ih => cases a <;> simp_all [printArgs, Sym.text]

theorem printFields_text (fs : List MappingField) :
    (printFields fs).map String.toList = fs.map (Sym.text .mappingField) := by
  induction fs with
  | nil => rfl
  | cons a as ih => cases a <;> simp_all [printFields, Sym.text]

theorem runs_args {as : List Arg}
    (h : ∀ a ∈ as, ∃ c, Reprints src .arg c a (·.kind.closes = true)) (rest : List Char) :
    Runs src ('(' :: ([',', ' '].intercalate (as.map (Sym.text .arg)) ++ ')' :: rest))
      (fun d d' => d.kind = .mark .openParen ∧
        ∃ as', Reads .args d.advance as' d' ∧ as'.map Arg.erase = as.map Arg.erase) rest := by
  have hlist := runs_commaList (s := .arg) (show (TokenKind.mark .closeParen).closes = true from rfl)
    (by decide) (by simp [Sym.Starts, TokenKind.startsExpr, TokenKind.startsPrimary,
      Grammar.unaryOp?]) h rest
  refine (((Runs.close .openParen rfl).seq hlist).imp ?_).congr (by simp [Mark.text])
  rintro d d' ⟨_, ⟨hk, rfl⟩, as', hread, has⟩
  exact ⟨hk, as', hread, has⟩

/-- A name is taken for no part of a number or of an ellipsis behind a point. -/
theorem Spells.head_of_word? {k : TokenKind} {text : List Char} {n : String} (h : Spells k text)
    (hk : k.word? = some n) : ∃ ch more, text = ch :: more ∧ ch.isDigit = false ∧ ch ≠ '.' := by
  cases h with
  | @word ch cs start others =>
    refine ⟨ch, cs, rfl, Bool.eq_false_iff.mpr fun hdigit => ?_, ?_⟩
    · simp [Lexer.isWordStart_of_isDigit hdigit] at start
    · rintro rfl
      exact absurd start (by decide)
  | quotedName => exact ⟨_, _, rfl, by decide, by decide⟩
  | @number _ isFloat => cases isFloat <;> simp [Lexer.numberKind, TokenKind.word?] at hk
  | string | mark => simp [TokenKind.word?] at hk

/-- The name of a member behind a point or an arrow. -/
theorem runs_memberName {m : Mark} {k : TokenKind} {n : String} (hm : m = .dot ∨ m = .rightArrow)
    (hk : k.Plain) (name : k.word? = some n) (hclear : Clear rest) :
    Clear (m.text.toList ++ (n.toList ++ rest)) ∧
      Runs src (m.text.toList ++ (n.toList ++ rest)) (fun d d' =>
        d.kind = .mark m ∧ d.advance.kind = k ∧ d' = d.advance.advance) rest := by
  rw [← TokenKind.spelling_of_word? name]
  obtain ⟨ch, more, htext, hdigit, hdot⟩ := Spells.head_of_word? hk name
  have hends : (TokenKind.mark m).Ends (k.spelling ++ rest) := by
    rw [htext]
    rcases hm with rfl | rfl
    · exact Mark.ends_cons (by simpa [Mark.joins] using hdot) _
    · exact Mark.ends_of_joins_nil rfl _
  constructor
  · rw [htext]
    rcases hm with rfl | rfl
    · exact .dot hdigit _
    · exact .mark (by decide) _
  · refine ((Runs.mark m hends).seq (.token hk (hclear.ends (TokenKind.ne_mark_of_word? name)))).imp
      ?_
    rintro d d' ⟨_, ⟨hm, rfl⟩, hk, rfl⟩
    exact ⟨hm, hk, rfl⟩

namespace Reprints

variable {n : String} {as : List Arg}

theorem field (hp : c₁.Plain) (target : Reprints src .accessing c e c₁.Follows)
    (dot : c₁.kind = .mark .dot) (name : c₁.advance.kind.word? = some n)
    (alone : ∀ d, stop d → d.kind ≠ .mark .openParen) :
    Reprints src .accessing c (.field e ⟨n, c₁.advance.span⟩ sp) stop where
  opens := target.opens.extend (by simp [Sym.text, Expr.print])
  runs rest hclear hstop := by
    have hword := hp.advance.kind (TokenKind.ne_endOfFile_of_word? name)
    obtain ⟨hclear₁, hname⟩ : _ ∧ Runs src _ _ _ := runs_memberName (.inl rfl) hword name hclear
    have htarget := target.runs hclear₁ (hname.follows (fun _ _ h => h.1) dot (by simp))
    refine ((htarget.seq hname).before.imp ?_).congr (by simp [Sym.text, Expr.print, Mark.text])
    rintro d d' ⟨⟨d₁, ⟨hk, e', hread, he⟩, hk₁, hk₂, rfl⟩, hd'⟩
    refine ⟨hk, _, .field hread hk₁ (hk₂ ▸ name) (alone _ (hstop _ hd')), ?_⟩
    simp_all [Sym.erase, Ident.erase]

/-- A call through a target. -/
theorem runs_targetCall {m : Mark} (hm : m = .dot ∨ m = .rightArrow) (hp : c₁.Plain)
    (target : Reprints src .accessing c e c₁.Follows) (mark : c₁.kind = .mark m)
    (name : c₁.advance.kind.word? = some n)
    (args : ∀ a ∈ as, ∃ c, Reprints src .arg c a (·.kind.closes = true)) (rest : List Char) :
    Runs src (e.print.toList ++ (m.text.toList ++ (n.toList ++
        '(' :: ([',', ' '].intercalate (as.map (Sym.text .arg)) ++ ')' :: rest))))
      (fun d d' => d.kind = c.kind ∧ ∃ e' d₁ as', Reads .accessing d e' d₁ ∧ d₁.kind = .mark m ∧
        d₁.advance.kind.word? = some n ∧ d₁.advance.advance.kind = .mark .openParen ∧
        Reads .args d₁.advance.advance.advance as' d' ∧ e'.erase = e.erase ∧
        as'.map Arg.erase = as.map Arg.erase) rest := by
  have hword := hp.advance.kind (TokenKind.ne_endOfFile_of_word? name)
  obtain ⟨hclear, hname⟩ : _ ∧ Runs src _ _ _ := runs_memberName hm hword name
    (.cons (x := '(') (by decide)
      ([',', ' '].intercalate (as.map (Sym.text .arg)) ++ ')' :: rest))
  have htarget := target.runs hclear
    (hname.follows (fun _ _ h => h.1) mark (by rcases hm with rfl | rfl <;> simp))
  refine (htarget.seq (hname.seq (runs_args args rest))).imp ?_
  rintro d d' ⟨d₁, ⟨hk, e', hread, he⟩, _, ⟨hk₁, hk₂, rfl⟩, hk₃, as', hargs, has⟩
  exact ⟨hk, e', d₁, as', hread, hk₁, hk₂ ▸ name, hk₃, hargs, he, has⟩

theorem methodCall (hp : c₁.Plain) (target : Reprints src .accessing c e c₁.Follows)
    (dot : c₁.kind = .mark .dot) (name : c₁.advance.kind.word? = some n)
    (args : ∀ a ∈ as, ∃ c, Reprints src .arg c a (·.kind.closes = true)) :
    Reprints src .accessing c (.methodCall e ⟨n, c₁.advance.span⟩ as sp) stop where
  opens := target.opens.extend (by simp [Sym.text, Expr.print])
  runs rest _ _ := by
    refine ((runs_targetCall (.inl rfl) hp target dot name args rest).imp ?_).congr
      (by simp [Sym.text, Expr.print, Mark.text, printArgs_text])
    rintro d d' ⟨hk, e', d₁, as', hread, hk₁, hname, hk₂, hargs, he, has⟩
    exact ⟨hk, _, .methodCall hread hk₁ hname hk₂ hargs, by simp_all [Sym.erase, Ident.erase]⟩

theorem remoteCall (hp : c₁.Plain) (target : Reprints src .accessing c e c₁.Follows)
    (arrow : c₁.kind = .mark .rightArrow) (name : c₁.advance.kind.word? = some n)
    (args : ∀ a ∈ as, ∃ c, Reprints src .arg c a (·.kind.closes = true)) :
    Reprints src .accessing c (.remoteCall e ⟨n, c₁.advance.span⟩ as sp) stop where
  opens := target.opens.extend (by simp [Sym.text, Expr.print])
  runs rest _ _ := by
    refine ((runs_targetCall (.inr rfl) hp target arrow name args rest).imp ?_).congr
      (by simp [Sym.text, Expr.print, Mark.text, printArgs_text])
    rintro d d' ⟨hk, e', d₁, as', hread, hk₁, hname, hk₂, hargs, he, has⟩
    exact ⟨hk, _, .remoteCall hread hk₁ hname hk₂ hargs, by simp_all [Sym.erase, Ident.erase]⟩

theorem index (target : Reprints src .accessing c e c₁.Follows)
    (opening : c₁.kind = .mark .openBracket) (position : Reprints src .expr c₁.advance f c₂.Follows) :
    Reprints src .accessing c (.index e f sp) stop where
  opens := target.opens.extend (by simp [Sym.text, Expr.print])
  runs rest hclear hstop := by
    have hclose : Runs src _ _ rest := Runs.close .closeBracket rfl
    have hposition := position.runs (.mark (m := .closeBracket) (by decide) rest)
      fun d hd => .of_closes (hclose.closes (fun _ _ h => h.1) rfl d hd)
    have hindex := (Runs.close .openBracket rfl).seq (hposition.seq hclose)
    have htarget := target.runs (.mark (m := .openBracket) (by decide) _) fun d hd => by
      obtain ⟨_, ⟨_, ⟨hk, rfl⟩, _, ⟨hk₁, -⟩, -⟩, -⟩ := hindex.run hd
      refine ⟨.inl (hk.trans opening.symm), fun hat => ⟨opening, ?_⟩⟩
      rw [← hat.2, Cursor.kindAt_succ, Cursor.kindAt_succ]
      exact hk₁.symm
    refine ((htarget.seq hindex).imp ?_).congr (by simp [Sym.text, Expr.print, Mark.text])
    rintro d d' ⟨d₁, ⟨hk, e', hread, he⟩, _, ⟨hk₁, rfl⟩, d₂, ⟨-, f', hread', hf⟩, hk₂, rfl⟩
    refine ⟨hk, _, .index hread hk₁ hread' hk₂, ?_⟩
    simp_all [Sym.erase]

end Reprints

/-! ### Operands -/

namespace Reprints

theorem literal {v : Literal} (hp : c.Plain) (word : c.kind.literal? = some v) :
    Reprints src .primary c (.literal v sp) stop := by
  obtain ⟨htext, hend, hmark⟩ := literal_spelling word
  exact reprints_token hp hend hmark (by simp [htext, Sym.text, Expr.print])
    fun _ hk _ _ => ⟨_, .literal (hk ▸ word), rfl⟩

theorem nilValue (opening : c.kind = .mark .openParen) :
    Reprints src .primary c (.literal .nil sp) stop where
  opens := (Opens.char '(' (by decide)).extend (by simp [Sym.text, Expr.print, Literal.print])
  runs rest _ _ := by
    refine (((Runs.close .openParen rfl).seq (Runs.close .closeParen rfl)).imp ?_).congr
      (by simp [Sym.text, Expr.print, Literal.print, Mark.text])
    rintro d d' ⟨_, ⟨hk, rfl⟩, hk₁, rfl⟩
    exact ⟨hk.trans opening.symm, _, .nilValue hk hk₁, rfl⟩

theorem paren (h : Reprints src .expr c.advance e c₁.Follows) (opening : c.kind = .mark .openParen) :
    Reprints src .primary c (.paren e sp) stop where
  opens := (Opens.char '(' (by decide)).extend (by simp [Sym.text, Expr.print])
  runs rest _ _ := by
    have hparen : Runs src _ _ rest := Runs.close .closeParen rfl
    have hinner := h.runs (.mark (m := .closeParen) (by decide) rest)
      fun d hd => .of_closes (hparen.closes (fun _ _ h => h.1) rfl d hd)
    refine (((Runs.close .openParen rfl).seq (hinner.seq hparen)).imp ?_).congr
      (by simp [Sym.text, Expr.print, Mark.text])
    rintro d d' ⟨_, ⟨hk, rfl⟩, d₁, ⟨-, e', hread, he⟩, hk₁, rfl⟩
    exact ⟨hk.trans opening.symm, _, .paren hk hread hk₁, congrArg (Expr.paren · .synthetic) he⟩

theorem mappingValue (h : Reprints src .mapping c e stop) : Reprints src .primary c e stop where
  opens := h.opens
  runs _ hclear hstop := (h.runs hclear hstop).imp fun _ _ ⟨hk, e', hread, he⟩ =>
    ⟨hk, e', .mapping hread, he⟩

theorem list {es : List Expr} (opening : c.kind = .mark .openBracket)
    (items : ∀ e ∈ es, ∃ c, Reprints src .expr c e (·.kind.closes = true)) :
    Reprints src .primary c (.list es sp) stop where
  opens := (Opens.char '[' (by decide)).extend (by simp [Sym.text, Expr.print])
  runs rest _ _ := by
    have hlist := runs_commaList (s := .expr)
      (show (TokenKind.mark .closeBracket).closes = true from rfl) (by decide)
      (by simp [Sym.Starts, TokenKind.startsExpr, TokenKind.startsPrimary, Grammar.unaryOp?]) items
      rest
    refine (((Runs.close .openBracket rfl).seq hlist).imp ?_).congr
      (by simp [show Sym.text .expr = (·.print.toList) from rfl, Sym.text, Expr.print, Mark.text,
        printExprs_eq, Function.comp_def])
    rintro d d' ⟨_, ⟨hk, rfl⟩, es', hread, hes⟩
    refine ⟨hk.trans opening.symm, _, .list hk hread, ?_⟩
    have : es'.map Expr.erase = es.map Expr.erase := hes
    simpa [Sym.erase] using this

theorem construct {as : Option (List Arg)} {t : Option TypeDesc} (word : c.kind = .keyword .kwNew)
    (type : ∀ x ∈ t, c.advance.kind.isIdent = true ∧
      Reprints src .suffixed c.advance x (·.kind = .mark .openParen))
    (args : ∀ a ∈ as.getD [], ∃ c, Reprints src .arg c a (·.kind.closes = true)) :
    Reprints src .primary c (.construct t (as.getD []) sp) stop where
  opens := (Opens.keyword .kwNew []).extend (by
    cases t <;> simp [Sym.text, Expr.print, Keyword.text])
  runs rest _ _ := by
    have hargs := runs_args args rest
    have hnew : ∀ more, Runs src (Keyword.kwNew.text.toList ++ ' ' :: more) _ (' ' :: more) :=
      fun more => .keyword .kwNew (headFails_cons.mpr rfl)
    cases t with
    | none =>
      refine (((hnew _).seq hargs.space).imp ?_).congr
        (by simp [Sym.text, Expr.print, Keyword.text, printArgs_text])
      rintro d d' ⟨_, ⟨hk, rfl⟩, hk₁, as', hread, has⟩
      refine ⟨hk.trans word.symm, _, .construct hk (.missing (by simp [hk₁, TokenKind.isIdent]))
        (.present hk₁ hread), ?_⟩
      simpa [Sym.erase] using has
    | some x =>
      obtain ⟨hident, hx⟩ := type x rfl
      have htype := hx.runs (.cons (x := '(') (by decide) _)
        fun d hd => hargs.kind_eq (fun _ _ h => h.1) hd
      refine (((hnew _).seq (htype.seq hargs).space).imp ?_).congr
        (by simp [Sym.text, Expr.print, Keyword.text, printArgs_text])
      rintro d d' ⟨_, ⟨hk, rfl⟩, d₁, ⟨hk₁, t', htype', ht⟩, hk₂, as', hread, has⟩
      refine ⟨hk.trans word.symm, _, .construct hk (.found (hk₁ ▸ hident) htype')
        (.present hk₂ hread), ?_⟩
      simp_all [Sym.erase]

theorem errorCall {as : List Arg} {s : Span} (word : c.kind = .keyword .kwError)
    (args : ∀ a ∈ as, ∃ c, Reprints src .arg c a (·.kind.closes = true)) :
    Reprints src .primary c (.call (.simple ⟨Keyword.kwError.text, s⟩) as sp) stop where
  opens := (Opens.keyword .kwError []).extend
    (by simp [Sym.text, Expr.print, NameRef.simple, NameRef.asWritten])
  runs rest _ _ := by
    refine (((Runs.keyword .kwError (headFails_cons.mpr rfl)).seq (runs_args args rest)).imp
      ?_).congr (by simp [Sym.text, Expr.print, NameRef.simple, NameRef.asWritten, printArgs_text])
    rintro d d' ⟨_, ⟨hk, rfl⟩, hk₁, as', hread, has⟩
    refine ⟨hk.trans word.symm, _, .errorCall hk hk₁ hread, ?_⟩
    simp_all [Sym.erase, NameRef.erase, NameRef.simple, Ident.erase]

theorem name {r : NameRef} (hp : c.Plain) (hat : c.atName = true) (ref : ReadsName c r c₁)
    (alone : ∀ d, stop d → d.kind ≠ .mark .openParen) :
    Reprints src .primary c (.name r) stop where
  opens := ref.opens hp
  runs rest hclear hstop := by
    refine (ref.runs hp hclear).before.imp ?_
    rintro d d' ⟨⟨hk, hqualified, r', href, hr⟩, hd'⟩
    exact ⟨hk, _, .name ((Cursor.atName_eq hk hqualified).trans hat) href
      (alone d' (hstop d' hd')), congrArg Expr.name hr⟩

theorem call {r : NameRef} {as : List Arg} (hp : c.Plain) (hat : c.atName = true)
    (ref : ReadsName c r c₁)
    (args : ∀ a ∈ as, ∃ c, Reprints src .arg c a (·.kind.closes = true)) :
    Reprints src .primary c (.call r as sp) stop where
  opens := (ref.opens hp).extend (by simp [Sym.text, Expr.print])
  runs rest _ _ := by
    refine (((ref.runs hp (.cons (x := '(') (by decide) _)).seq (runs_args args rest)).imp
      ?_).congr (by simp [Sym.text, Expr.print, printArgs_text])
    rintro d d' ⟨d₁, ⟨hk, hqualified, r', href, hr⟩, hk₁, as', hread, has⟩
    refine ⟨hk, _, .call ((Cursor.atName_eq hk hqualified).trans hat) href hk₁ hread, ?_⟩
    simp_all [Sym.erase]

end Reprints

end Durable
